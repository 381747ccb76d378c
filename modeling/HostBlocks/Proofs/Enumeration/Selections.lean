import HostBlocks.Proofs.Enumeration.Partition
import Mathlib.Data.Set.Function

/-!
# What a shuffle selects

The first calls of a shuffle give the blocks of the indexes it draws, and the first of these tells the
position it was drawn from, because the indexes ahead are all different. So different draws select
different blocks, and as each index that is ahead stands at some position, every list of blocks without
repetition is selected.
-/
namespace HostBlocks

namespace Source

/-- Each number of the list is below `n` and at least its place, where places count from `i`. -/
def Ranged (n i : Nat) (js : List Nat) : Prop :=
  ∀ m (h : m < js.length), i + m ≤ js[m] ∧ js[m] < n

theorem ranged_nil (n i : Nat) : Ranged n i [] := nofun

theorem ranged_cons_iff {n i j : Nat} {js : List Nat} :
    Ranged n i (j :: js) ↔ (i ≤ j ∧ j < n) ∧ Ranged n (i + 1) js := by
  constructor
  · intro h
    refine ⟨h 0 (Nat.succ_pos _), fun m hm => ?_⟩
    have hm' := h (m + 1) (Nat.succ_lt_succ hm)
    rw [List.getElem_cons_succ] at hm'
    omega
  · rintro ⟨hj, hjs⟩ m hm
    cases m with
    | zero => exact hj
    | succ m =>
      have hm' := hjs m (Nat.lt_of_succ_lt_succ hm)
      rw [List.getElem_cons_succ]
      omega

variable {σ : Type}

/-- The numbers that a source gives if it is asked `k` times for one below `n`, at first from `i` up
and each time from one higher. -/
def draws (source : Source σ) (n : Nat) : Nat → Nat → σ → List Nat
  | _, 0, _ => []
  | i, k + 1, r =>
    let drawn := source.draw r i n
    drawn.1 :: source.draws n (i + 1) k drawn.2

theorem length_draws (source : Source σ) (n i k : Nat) (r : σ) :
    (source.draws n i k r).length = k := by
  induction k generalizing i r with
  | zero => rfl
  | succ k ih => rw [draws, List.length_cons, ih]

theorem ranged_draws (source : Source σ) {n i k : Nat} (r : σ) (h : i + k ≤ n) :
    Ranged n i (source.draws n i k r) := by
  induction k generalizing i r with
  | zero => exact ranged_nil n i
  | succ k ih =>
    have hi : i < n := by omega
    exact ranged_cons_iff.2 ⟨⟨source.le_draw r hi, source.draw_lt r hi⟩, ih _ (by omega)⟩

def scripted : Source (List Nat) where
  draw js lo hi := (if lo ≤ js.headD lo ∧ js.headD lo < hi then js.headD lo else lo, js.tail)
  le_draw js lo hi _ := by
    dsimp only
    split <;> omega
  draw_lt js lo hi h := by
    dsimp only
    split <;> omega

theorem draws_scripted {n i : Nat} {js : List Nat} (h : Ranged n i js) :
    scripted.draws n i js.length js = js := by
  induction js generalizing i with
  | nil => rfl
  | cons j js ih =>
    obtain ⟨hj, hjs⟩ := ranged_cons_iff.1 h
    have hdraw : scripted.draw (j :: js) i n = (j, js) := congrArg (·, js) (if_pos hj)
    rw [List.length_cons, draws, hdraw]
    exact congrArg _ (ih hjs)

end Source

namespace Shuffle

variable (s : Shuffle)

def indexes (s : Shuffle) : List Nat → List Nat
  | [] => []
  | j :: js => (s.take j).1 :: (s.take j).2.indexes js

variable {s} {js js' xs : List Nat}

theorem mem_ahead_iff {x : Nat} :
    x ∈ s.ahead ↔ ∃ j, (s.drawn ≤ j ∧ j < s.layout.count) ∧ s.held j = x := by
  rw [ahead, List.mem_map]
  apply exists_congr
  intro j
  apply and_congr_left
  intro _
  rw [List.mem_range'_1]
  omega

theorem length_indexes : (s.indexes js).length = js.length := by
  induction js generalizing s with
  | nil => rfl
  | cons j js ih => rw [indexes, List.length_cons, List.length_cons, ih]

section

variable (hnodup : s.ahead.Nodup)

include hnodup

/-- Different positions hold different indexes. -/
theorem held_inj {j j' : Nat} (hj : s.drawn ≤ j ∧ j < s.layout.count)
    (hj' : s.drawn ≤ j' ∧ j' < s.layout.count) (h : s.held j = s.held j') : j = j' := by
  have hmem : ∀ {i}, s.drawn ≤ i ∧ i < s.layout.count →
      i ∈ List.range' s.drawn (s.layout.count - s.drawn) := by
    intro i hi
    rw [List.mem_range'_1]
    omega
  exact List.inj_on_of_nodup_map hnodup (hmem hj) (hmem hj') h

/-- After a draw the indexes ahead are those before, without the one that was drawn. -/
theorem ahead_take {j : Nat} (hj : s.drawn ≤ j ∧ j < s.layout.count) :
    (s.take j).2.ahead.Nodup ∧
      ∀ x, x ∈ (s.take j).2.ahead ↔ x ∈ s.ahead ∧ x ≠ (s.take j).1 := by
  have hperm := take_perm hj.1 hj.2
  obtain ⟨hnot, hnodup'⟩ := List.nodup_cons.1 (hperm.nodup_iff.2 hnodup)
  refine ⟨hnodup', fun x => ?_⟩
  rw [← hperm.mem_iff, List.mem_cons]
  constructor
  · intro hx
    exact ⟨Or.inr hx, fun he => hnot (he ▸ hx)⟩
  · rintro ⟨hx, hne⟩
    exact hx.resolve_left hne

theorem indexes_selected (h : Source.Ranged s.layout.count s.drawn js) :
    (s.indexes js).Nodup ∧ ∀ x ∈ s.indexes js, x ∈ s.ahead := by
  induction js generalizing s with
  | nil => exact ⟨List.nodup_nil, nofun⟩
  | cons j js ih =>
    obtain ⟨hj, hjs⟩ := Source.ranged_cons_iff.1 h
    obtain ⟨hnodup', hahead⟩ := ahead_take hnodup hj
    obtain ⟨hrest, hmem⟩ := ih hnodup' (by rwa [layout_take, drawn_take])
    refine ⟨List.nodup_cons.2 ⟨fun hin => ?_, hrest⟩, List.forall_mem_cons.2 ⟨?_, fun x hx => ?_⟩⟩
    · exact ((hahead _).1 (hmem _ hin)).2 rfl
    · exact mem_ahead_iff.2 ⟨j, hj, index_take.symm⟩
    · exact ((hahead x).1 (hmem x hx)).1

theorem indexes_inj (h : Source.Ranged s.layout.count s.drawn js)
    (h' : Source.Ranged s.layout.count s.drawn js') (he : s.indexes js = s.indexes js') : js = js' := by
  induction js generalizing s js' with
  | nil =>
    cases js' with
    | nil => rfl
    | cons j' js' => cases he
  | cons j js ih =>
    cases js' with
    | nil => cases he
    | cons j' js' =>
      obtain ⟨hj, hjs⟩ := Source.ranged_cons_iff.1 h
      obtain ⟨hj', hjs'⟩ := Source.ranged_cons_iff.1 h'
      obtain ⟨hhead, htail⟩ := List.cons.inj he
      rw [index_take, index_take] at hhead
      obtain rfl := held_inj hnodup hj hj' hhead
      have hnodup' := (ahead_take hnodup hj).1
      rw [ih hnodup' (by rwa [layout_take, drawn_take]) (by rwa [layout_take, drawn_take]) htail]

theorem exists_indexes (hxs : xs.Nodup) (hmem : ∀ x ∈ xs, x ∈ s.ahead) :
    ∃ js, Source.Ranged s.layout.count s.drawn js ∧ s.indexes js = xs := by
  induction xs generalizing s with
  | nil => exact ⟨[], Source.ranged_nil _ _, rfl⟩
  | cons x xs ih =>
    obtain ⟨hx, hrest⟩ := List.forall_mem_cons.1 hmem
    obtain ⟨hnot, hxs'⟩ := List.nodup_cons.1 hxs
    obtain ⟨j, hj, hheld⟩ := mem_ahead_iff.1 hx
    obtain ⟨hnodup', hahead⟩ := ahead_take hnodup hj
    have hindex : (s.take j).1 = x := index_take.trans hheld
    have hlater : ∀ y ∈ xs, y ∈ (s.take j).2.ahead := by
      intro y hy
      refine (hahead y).2 ⟨hrest y hy, fun he => hnot ?_⟩
      rwa [← hindex, ← he]
    obtain ⟨js, hjs, hindexes⟩ := ih hnodup' hxs' hlater
    rw [layout_take, drawn_take] at hjs
    exact ⟨j :: js, Source.ranged_cons_iff.2 ⟨hj, hjs⟩, by rw [indexes, hindex, hindexes]⟩

end

section

variable {σ : Type} (source : Source σ)

def firstBlocks (s : Shuffle) (source : Source σ) (k : Nat) (r : σ) : List Network :=
  Enumerator.first (fun p : Shuffle × σ => p.1.nextFrom source p.2) k (s, r)

theorem firstBlocks_eq {k : Nat} (r : σ) (h : s.drawn + k ≤ s.layout.count) :
    s.firstBlocks source k r =
      (s.indexes (source.draws s.layout.count s.drawn k r)).map s.layout.block := by
  induction k generalizing s r with
  | zero => rfl
  | succ k ih =>
    let position := source.draw r s.drawn s.layout.count
    have hnext := s.nextFrom_of_lt source r (by omega)
    have hlater := ih (s := (s.take position.1).2) position.2
      (by rw [layout_take, drawn_take]; omega)
    rw [layout_take, drawn_take] at hlater
    rw [firstBlocks, Enumerator.first_succ hnext, Source.draws, indexes, List.map_cons]
    exact congrArg _ hlater

end

end Shuffle

namespace Layout

variable (l : Layout)

theorem indexOf_block {i : Nat} (hi : i < l.count) : l.indexOf (l.block i).address = i :=
  ((l.contains_block_iff hi _).1 (Network.contains_address _)).2

/-- The blocks of a layout are the networks of their length in the pool, without host bits. -/
theorem mem_blocks_iff {cidr : Network} :
    cidr ∈ l.blocks ↔ l.pool.includes cidr ∧ cidr.length = l.length ∧ cidr.trunc = cidr := by
  constructor
  · intro h
    obtain ⟨i, hi, rfl⟩ := (l.mem_blocks cidr).1 h
    exact ⟨l.includes_block hi, rfl, l.trunc_block hi⟩
  · rintro ⟨hpool, hlength, hclear⟩
    have hin : l.pool.contains cidr.address :=
      (l.pool.includes_iff_contains cidr).1 hpool _ cidr.contains_address
    have hi := l.indexOf_lt hin
    have hblock := (l.contains_block_iff hi cidr.address).2 ⟨hin, rfl⟩
    have htrunc := Network.trunc_eq_of_contains hblock cidr.contains_address hlength.symm
    rw [l.trunc_block hi, hclear] at htrunc
    exact (l.mem_blocks cidr).2 ⟨_, hi, htrunc⟩

/-- Selections of blocks are those of their indexes. -/
theorem bijOn_map_block (k : Nat) :
    Set.BijOn (List.map l.block)
      {xs | xs.length = k ∧ xs.Nodup ∧ ∀ x ∈ xs, x < l.count}
      {chosen | chosen.length = k ∧ chosen.Nodup ∧ ∀ c ∈ chosen, c ∈ l.blocks} := by
  have hindex : ∀ c ∈ l.blocks, l.indexOf c.address < l.count ∧ l.block (l.indexOf c.address) = c := by
    intro c hc
    obtain ⟨i, hi, rfl⟩ := (l.mem_blocks c).1 hc
    rw [l.indexOf_block hi]
    exact ⟨hi, rfl⟩
  have hinv : Set.InvOn (List.map fun c => l.indexOf c.address) (List.map l.block)
      {xs | xs.length = k ∧ xs.Nodup ∧ ∀ x ∈ xs, x < l.count}
      {chosen | chosen.length = k ∧ chosen.Nodup ∧ ∀ c ∈ chosen, c ∈ l.blocks} := by
    constructor
    · rintro xs ⟨-, -, hlt⟩
      rw [List.map_map]
      exact (List.map_congr_left fun x hx => l.indexOf_block (hlt x hx)).trans (List.map_id xs)
    · rintro chosen ⟨-, -, hmem⟩
      rw [List.map_map]
      exact (List.map_congr_left fun c hc => (hindex c (hmem c hc)).2).trans (List.map_id chosen)
  apply hinv.bijOn
  · rintro xs ⟨hlen, hnodup, hlt⟩
    refine ⟨by rw [List.length_map, hlen], ?_, ?_⟩
    · exact hnodup.map_on fun x hx y hy h => (l.block_inj (hlt x hx) (hlt y hy)).1 h
    · intro c hc
      obtain ⟨x, hx, rfl⟩ := List.mem_map.1 hc
      exact (l.mem_blocks _).2 ⟨x, hlt x hx, rfl⟩
  · rintro chosen ⟨hlen, hnodup, hmem⟩
    refine ⟨by rw [List.length_map, hlen], ?_, ?_⟩
    · apply hnodup.map_on
      intro c hc d hd h
      rw [← (hindex c (hmem c hc)).2, ← (hindex d (hmem d hd)).2, h]
    · intro x hx
      obtain ⟨c, hc, rfl⟩ := List.mem_map.1 hx
      exact (hindex c (hmem c hc)).1

end Layout

namespace Shuffle

theorem bijOn_indexes {s : Shuffle} (hnodup : s.ahead.Nodup) (k : Nat) :
    Set.BijOn s.indexes {js | js.length = k ∧ Source.Ranged s.layout.count s.drawn js}
      {xs | xs.length = k ∧ xs.Nodup ∧ ∀ x ∈ xs, x ∈ s.ahead} := by
  refine ⟨?_, ?_, ?_⟩
  · rintro js ⟨hlen, hjs⟩
    exact ⟨length_indexes.trans hlen, indexes_selected hnodup hjs⟩
  · rintro js ⟨-, hjs⟩ js' ⟨-, hjs'⟩ he
    exact indexes_inj hnodup hjs hjs' he
  · rintro xs ⟨hlen, hxs, hmem⟩
    obtain ⟨js, hjs, rfl⟩ := exists_indexes hnodup hxs hmem
    exact ⟨js, ⟨length_indexes.symm.trans hlen, hjs⟩, rfl⟩

variable {l : Layout} {k : Nat}

theorem firstBlocks_start {σ : Type} (source : Source σ) (r : σ) (hk : k ≤ l.count) :
    (start l).firstBlocks source k r =
      ((start l).indexes (source.draws l.count 0 k r)).map l.block :=
  firstBlocks_eq source r ((Nat.zero_add k).symm ▸ hk)

theorem firstBlocks_scripted {js : List Nat} (hlen : js.length = k) (hjs : Source.Ranged l.count 0 js)
    (hk : k ≤ l.count) :
    (start l).firstBlocks .scripted k js = ((start l).indexes js).map l.block := by
  subst hlen
  rw [firstBlocks_start .scripted js hk, Source.draws_scripted hjs]

/-- Draws in range select blocks, each selection by one sequence of draws. -/
theorem bijOn_firstBlocks (hk : k ≤ l.count) :
    Set.BijOn ((start l).firstBlocks .scripted k) {js | js.length = k ∧ Source.Ranged l.count 0 js}
      {chosen | chosen.length = k ∧ chosen.Nodup ∧ ∀ c ∈ chosen, c ∈ l.blocks} := by
  have hnodup : (start l).ahead.Nodup := by
    rw [ahead_start]
    exact List.nodup_range
  have hindexes := bijOn_indexes hnodup k
  simp only [ahead_start, List.mem_range] at hindexes
  exact ((l.bijOn_map_block k).comp hindexes).congr fun js hjs =>
    (firstBlocks_scripted hjs.1 hjs.2 hk).symm

end Shuffle

end HostBlocks
