import HostBlocks.Proofs.Enumeration.Permutation

/-!
# Hints are exact

An enumerator that counts down gives one element a call until its count is zero, so after any number of
calls the rest of its count is the number of elements to come. The ascending walk finds this number from
addresses and the shuffle from its draws. Both count down from the number of blocks, so both give the
same hint after as many calls.
-/
namespace HostBlocks

namespace Enumerator

variable {σ α : Type}

/-- States with so many elements to come: the last has none, and from any other a call gives one. -/
structure Countdown (next : σ → Option (α × σ)) (left : Nat → σ → Prop) : Prop where
  done : ∀ s, left 0 s → next s = none
  call : ∀ n s, left (n + 1) s → ∃ a s', next s = some (a, s') ∧ left n s'

namespace Countdown

variable {next : σ → Option (α × σ)} {left : Nat → σ → Prop} (h : Countdown next left)
  {n : Nat} {s : σ}

include h

theorem after (hs : left n s) (k : Nat) : left (n - k) (Enumerator.after next k s) := by
  induction k generalizing n s with
  | zero => exact hs
  | succ k ih =>
    cases n with
    | zero =>
      rw [after_of_none (h.done s hs), Nat.zero_sub]
      exact hs
    | succ n =>
      obtain ⟨a, s', hnext, hs'⟩ := h.call n s hs
      rw [Enumerator.after, hnext, Nat.succ_sub_succ]
      exact ih hs'

theorem exists_gives (hs : left n s) : ∃ order : List α, order.length = n ∧ Gives next s order := by
  induction n generalizing s with
  | zero => exact ⟨[], rfl, gives_nil (h.done s hs)⟩
  | succ n ih =>
    obtain ⟨a, s', hnext, hs'⟩ := h.call n s hs
    obtain ⟨order, hlen, hgives⟩ := ih hs'
    exact ⟨a :: order, congrArg Nat.succ hlen, hgives.cons hnext⟩

theorem next_eq_none_iff (hs : left n s) : next s = none ↔ n = 0 := by
  cases n with
  | zero => exact iff_of_true (h.done s hs) rfl
  | succ n =>
    obtain ⟨a, s', hnext, -⟩ := h.call n s hs
    simp [hnext]

end Countdown

/-- The hint is the number of elements to come if it has at most 64 bits, and else the largest such
number as a lower bound. It is zero just when nothing comes. -/
structure Tells (next : σ → Option (α × σ)) (hint : σ → Nat × Option Nat) (s : σ) (n : Nat) : Prop where
  exists_gives : ∃ order : List α, order.length = n ∧ Gives next s order
  hint_eq : hint s = if n < 2 ^ 64 then (n, some n) else (2 ^ 64 - 1, none)
  exhausted_iff : hint s = (0, some 0) ↔ next s = none

theorem sizeHint_eq_zero_iff (n : Nat) : sizeHint n = (0, some 0) ↔ n = 0 := by
  rw [sizeHint]
  split
  · simp
  · next h =>
    simp only [Prod.mk.injEq, reduceCtorEq, and_false, false_iff]
    omega

/-- An enumerator that counts down gives exact hints if it reckons with its count. -/
theorem Countdown.tells {next : σ → Option (α × σ)} {left : Nat → σ → Prop}
    (h : Countdown next left) {hint : σ → Nat × Option Nat}
    (hhint : ∀ n s, left n s → hint s = sizeHint n) {n : Nat} {s : σ} (hs : left n s) (k : Nat) :
    Tells next hint (Enumerator.after next k s) (n - k) := by
  have hs' := h.after hs k
  refine ⟨h.exists_gives hs', hhint _ _ hs', ?_⟩
  rw [hhint _ _ hs', sizeHint_eq_zero_iff, h.next_eq_none_iff hs']

end Enumerator

namespace Ascending

/-- Walks along a layout with so many blocks to come. -/
def Left (l : Layout) (n : Nat) (w : Ascending) : Prop := ∃ k, k + n = l.count ∧ w = after l k

variable {l : Layout} {n : Nat} {w : Ascending}

theorem left_start (l : Layout) : Left l l.count (start l) :=
  ⟨0, Nat.zero_add _, start_eq_after l⟩

theorem countdown (l : Layout) : Enumerator.Countdown next (Left l) where
  done := by
    rintro w ⟨k, hk, rfl⟩
    rw [next_after, if_neg (by omega)]
  call := by
    rintro n w ⟨k, hk, rfl⟩
    refine ⟨l.block k, after l (k + 1), ?_, k + 1, by omega, rfl⟩
    rw [next_after, if_pos (by omega)]

theorem Left.remaining_eq (h : Left l n w) : w.remaining = n := by
  obtain ⟨k, hk, rfl⟩ := h
  rw [remaining_after]
  omega

end Ascending

namespace Shuffle

def Left (l : Layout) (n : Nat) (s : Shuffle) : Prop := s.layout = l ∧ s.drawn + n = l.count

variable {l : Layout} {n : Nat} {s : Shuffle}

theorem left_start (l : Layout) : Left l l.count (start l) := ⟨rfl, Nat.zero_add _⟩

theorem Left.nextFrom_eq_none (h : Left l 0 s) {σ : Type} (source : Source σ) (r : σ) :
    s.nextFrom source r = none := by
  obtain ⟨rfl, hdrawn⟩ := h
  exact if_pos hdrawn

theorem Left.exists_nextFrom (h : Left l (n + 1) s) {σ : Type} (source : Source σ) (r : σ) :
    ∃ cidr s' r', s.nextFrom source r = some (cidr, s', r') ∧ Left l n s' := by
  obtain ⟨rfl, hdrawn⟩ := h
  obtain ⟨j, r', -, -, hnext⟩ := s.nextFrom_eq source r (by omega)
  refine ⟨_, _, r', hnext, layout_take, ?_⟩
  rw [drawn_take]
  omega

theorem countdown (l : Layout) {σ : Type} (source : Source σ) :
    Enumerator.Countdown (fun p : Shuffle × σ => p.1.nextFrom source p.2) (fun n p => Left l n p.1) where
  done p h := h.nextFrom_eq_none source p.2
  call n p h := by
    obtain ⟨cidr, s', r', hnext, hleft⟩ := h.exists_nextFrom source p.2
    exact ⟨cidr, (s', r'), hnext, hleft⟩

theorem Left.remaining_eq (h : Left l n s) : s.remaining = n := by
  obtain ⟨rfl, hdrawn⟩ := h
  rw [remaining]
  omega

end Shuffle

namespace Candidates

def Left (l : Layout) (n : Nat) : Candidates → Prop
  | .ascending walk => walk.Left l n
  | .shuffled shuffle _ => shuffle.Left l n

variable {l : Layout} {n : Nat} {c : Candidates}

theorem countdown (l : Layout) : Enumerator.Countdown next (Left l) where
  done c h := by
    cases c with
    | ascending walk => exact Option.map_eq_none_iff.2 ((Ascending.countdown l).done walk h)
    | shuffled shuffle words =>
      exact Option.map_eq_none_iff.2 (Shuffle.Left.nextFrom_eq_none h Words.source words)
  call n c h := by
    cases c with
    | ascending walk =>
      obtain ⟨cidr, walk', hnext, hleft⟩ := (Ascending.countdown l).call n walk h
      exact ⟨cidr, .ascending walk', Option.map_eq_some_iff.2 ⟨_, hnext, rfl⟩, hleft⟩
    | shuffled shuffle words =>
      obtain ⟨cidr, shuffle', words', hnext, hleft⟩ :=
        Shuffle.Left.exists_nextFrom h Words.source words
      exact ⟨cidr, .shuffled shuffle' words', Option.map_eq_some_iff.2 ⟨_, hnext, rfl⟩, hleft⟩

theorem Left.remaining_eq (h : Left l n c) : c.remaining = n := by
  cases c with
  | ascending walk => exact Ascending.Left.remaining_eq h
  | shuffled shuffle words => exact Shuffle.Left.remaining_eq h

theorem exists_left {pool : Network} {lengths : BlockLengths} {selection : Selection} {words : Words}
    (h : of pool lengths selection words = .ok c) :
    ∃ l, Layout.of pool (lengths.of pool.family) = .ok l ∧ Left l l.count c := by
  obtain ⟨l, hl, rfl | rfl⟩ := of_cases h
  · exact ⟨l, hl, Ascending.left_start l⟩
  · exact ⟨l, hl, Shuffle.left_start l⟩

end Candidates

open Enumerator in
/-- The hint of an ascending walk, of a shuffle with any source of draws and of candidates tells after
any number of calls how many blocks of the pool are still to come. So walk and shuffle give the same hint
after as many calls. -/
theorem hints_tell_rest (pool : Network) (length : Nat) :
    let count := 2 ^ (length - pool.length)
    (∀ walk, Ascending.of pool length = .ok walk → walk.layout.count = count ∧
      ∀ k, Tells Ascending.next Ascending.hint (after Ascending.next k walk) (count - k)) ∧
    (∀ shuffle, Shuffle.of pool length = .ok shuffle → shuffle.layout.count = count ∧
      ∀ {σ : Type} (source : Source σ) (r : σ) k,
        let next (p : Shuffle × σ) := p.1.nextFrom source p.2
        Tells next (fun p => p.1.hint) (after next k (shuffle, r)) (count - k)) ∧
    (∀ lengths selection words c, lengths.of pool.family = length →
      Candidates.of pool lengths selection words = .ok c →
      ∀ k, Tells Candidates.next Candidates.hint (after Candidates.next k c) (count - k)) ∧
    ∀ walk shuffle, Ascending.of pool length = .ok walk → Shuffle.of pool length = .ok shuffle →
      ∀ {σ : Type} (source : Source σ) (r : σ) k,
        (after Ascending.next k walk).hint =
          (after (fun p : Shuffle × σ => p.1.nextFrom source p.2) k (shuffle, r)).1.hint := by
  intro count
  have hcount : ∀ l, Layout.of pool length = .ok l → l.count = count := by
    intro l hl
    obtain ⟨rfl, rfl⟩ := l.of_eq_ok_iff.1 hl
    rfl
  have hwalk : ∀ walk, Ascending.of pool length = .ok walk → walk.layout.count = count ∧
      ∀ k, Tells Ascending.next Ascending.hint (after Ascending.next k walk) (count - k) := by
    intro walk h
    obtain ⟨l, hl, rfl⟩ := exists_of_map_eq_ok h
    rw [← hcount l hl]
    exact ⟨rfl, (Ascending.countdown l).tells (fun n w hw => congrArg sizeHint hw.remaining_eq)
      (Ascending.left_start l)⟩
  have hshuffle : ∀ shuffle, Shuffle.of pool length = .ok shuffle → shuffle.layout.count = count ∧
      ∀ {σ : Type} (source : Source σ) (r : σ) k,
        let next (p : Shuffle × σ) := p.1.nextFrom source p.2
        Tells next (fun p => p.1.hint) (after next k (shuffle, r)) (count - k) := by
    intro shuffle h
    obtain ⟨l, hl, rfl⟩ := exists_of_map_eq_ok h
    rw [← hcount l hl]
    exact ⟨rfl, fun source r => (Shuffle.countdown l source).tells
      (fun n p hp => congrArg sizeHint hp.remaining_eq) (s := (Shuffle.start l, r)) (Shuffle.left_start l)⟩
  refine ⟨hwalk, hshuffle, ?_, ?_⟩
  · intro lengths selection words c hlength h
    obtain ⟨l, hl, hleft⟩ := Candidates.exists_left h
    rw [hlength] at hl
    rw [← hcount l hl]
    exact (Candidates.countdown l).tells (fun n c hc => congrArg sizeHint hc.remaining_eq) hleft
  · intro walk shuffle hw hs σ source r k
    exact ((hwalk walk hw).2 k).hint_eq.trans ((hshuffle shuffle hs).2 source r k).hint_eq.symm

open Enumerator in
/-- Of `2 ^ 65` blocks in a pool with host bits, the first `2 ^ 64 + 1` leave a number that has 64 bits. -/
theorem hints_tell_rest_of_many :
    let pool : Network := ⟨⟨.v6, 0xfd000000000000000000000000000005, by decide⟩, 48, by decide⟩
    let l : Layout := ⟨pool, 113, by decide, by decide, by decide, by decide⟩
    let draw (p : Shuffle × Words) := p.1.nextFrom Words.source p.2
    let words : Words := .ofSeed 7
    (Ascending.of pool 113 = .ok (.start l) ∧ Shuffle.of pool 113 = .ok (.start l) ∧
      Candidates.of pool ⟨26, 113⟩ .random words = .ok (.shuffled (.start l) words)) ∧
    (Ascending.start l).hint = (2 ^ 64 - 1, none) ∧
    (after Ascending.next (2 ^ 64 + 1) (.start l)).hint = (2 ^ 64 - 1, some (2 ^ 64 - 1)) ∧
    (after draw (2 ^ 64 + 1) (.start l, words)).1.hint = (2 ^ 64 - 1, some (2 ^ 64 - 1)) ∧
    draw (after draw (2 ^ 65) (.start l, words)) = none ∧
    (after Candidates.next (2 ^ 65 - 1) (.shuffled (.start l) words)).hint = (1, some 1) := by
  intro pool l draw words
  have hl : Layout.of pool 113 = .ok l := l.of_eq_ok_iff.2 ⟨rfl, rfl⟩
  have hwalk : Ascending.of pool 113 = .ok (.start l) := by rw [Ascending.of, hl]; rfl
  have hshuffle : Shuffle.of pool 113 = .ok (.start l) := by rw [Shuffle.of, hl]; rfl
  have hcandidates : Candidates.of pool ⟨26, 113⟩ .random words = .ok (.shuffled (.start l) words) := by
    show (Shuffle.of pool 113).map (Candidates.shuffled · words) = _
    rw [hshuffle]
    rfl
  obtain ⟨ha, hs, hc, hsame⟩ := hints_tell_rest pool 113
  obtain ⟨-, ha⟩ := ha _ hwalk
  obtain ⟨-, hs⟩ := hs _ hshuffle
  have hcount : 2 ^ (113 - pool.length) = 2 ^ 65 := rfl
  rw [hcount] at ha hs hc
  have hc := hc ⟨26, 113⟩ .random words _ rfl hcandidates
  refine ⟨⟨hwalk, hshuffle, hcandidates⟩, ?_, ?_, ?_, ?_, ?_⟩
  · exact (ha 0).hint_eq.trans (if_neg (by decide))
  · exact (ha (2 ^ 64 + 1)).hint_eq.trans (if_pos (by decide))
  · rw [← hsame _ _ hwalk hshuffle Words.source words (2 ^ 64 + 1)]
    exact (ha (2 ^ 64 + 1)).hint_eq.trans (if_pos (by decide))
  · have hdone := hs Words.source words (2 ^ 65)
    exact hdone.exhausted_iff.1 (hdone.hint_eq.trans (if_pos (by decide)))
  · exact (hc (2 ^ 65 - 1)).hint_eq.trans (if_pos (by decide))

end HostBlocks
