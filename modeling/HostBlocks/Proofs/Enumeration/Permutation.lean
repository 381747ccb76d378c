import HostBlocks.Proofs.Enumeration.Blocks

/-!
# Every order gives the same blocks

The indexes that a shuffle has not drawn yet are those that its array holds from the first position
on that is still to come. One draw takes one of them and leaves the others, wherever the drawn
position lies, so a shuffle gives the blocks of its layout in some order. So do candidates of either
selection.
-/
open scoped List

namespace HostBlocks

namespace Shuffle

variable (s : Shuffle)

/-- The indexes still to be drawn, in the order of their positions. -/
def ahead : List Nat := (List.range' s.drawn (s.layout.count - s.drawn)).map s.held

theorem ahead_start (l : Layout) : (start l).ahead = List.range l.count := by
  have hheld : (start l).held = id := by
    funext position
    simp [held, start]
  rw [ahead, hheld, List.map_id, List.range_eq_range']
  rfl

variable {s} {j : Nat}

@[simp] theorem layout_take : (s.take j).2.layout = s.layout := by
  unfold take
  split <;> rfl

@[simp] theorem drawn_take : (s.take j).2.drawn = s.drawn + 1 := by
  unfold take
  split <;> rfl

theorem index_take : (s.take j).1 = s.held j := by
  unfold take
  split
  · next h => rw [h]
  · rfl

/-- After the first position was swapped away, the drawn position holds what the first one held. -/
theorem held_take {k : Nat} (hk : s.drawn < k) :
    (s.take j).2.held k = if k = j then s.held s.drawn else s.held k := by
  have hne : s.drawn ≠ k := Nat.ne_of_lt hk
  by_cases h : j = s.drawn
  · have hkj : k ≠ j := by omega
    simp only [take, if_pos h, if_neg hkj, held]
    rw [Std.ExtTreeMap.getElem?_erase, if_neg (by simpa using hne)]
  · simp only [take, if_neg h, held]
    rw [Std.ExtTreeMap.getElem?_insert, Std.ExtTreeMap.getElem?_erase]
    by_cases hkj : k = j
    · simp [hkj]
    · have hjk : j ≠ k := fun he => hkj he.symm
      simp [hkj, hjk, hne]

theorem map_held_take {part : List Nat} (h : ∀ k ∈ part, s.drawn < k ∧ k ≠ j) :
    part.map (s.take j).2.held = part.map s.held := by
  apply List.map_congr_left
  intro k hk
  rw [held_take (h k hk).1, if_neg (h k hk).2]

/-- A draw takes one of the indexes ahead and leaves the others. -/
theorem take_perm (hj : s.drawn ≤ j) (hlt : j < s.layout.count) :
    (s.take j).1 :: (s.take j).2.ahead ~ s.ahead := by
  obtain ⟨m, hm⟩ : ∃ m, s.layout.count - s.drawn = m + 1 :=
    ⟨s.layout.count - s.drawn - 1, by omega⟩
  have hrest : s.layout.count - (s.drawn + 1) = m := by omega
  have hlow : ∀ k ∈ List.range' (s.drawn + 1) m, s.drawn < k := fun k hk =>
    (List.mem_range'_1.1 hk).1
  rw [index_take, ahead, ahead, layout_take, drawn_take, hrest, hm, List.range'_succ, List.map_cons]
  by_cases h : j = s.drawn
  · have hne : ∀ k ∈ List.range' (s.drawn + 1) m, s.drawn < k ∧ k ≠ j := fun k hk =>
      ⟨hlow k hk, by have := hlow k hk; omega⟩
    rw [map_held_take hne, h]
  · have hmem : j ∈ List.range' (s.drawn + 1) m := List.mem_range'_1.2 ⟨by omega, by omega⟩
    obtain ⟨below, above, hsplit⟩ := List.append_of_mem hmem
    have hnodup := List.nodup_range' (s := s.drawn + 1) (n := m)
    rw [hsplit] at hnodup hlow ⊢
    obtain ⟨hj', -⟩ := List.nodup_cons.1 (List.perm_middle.nodup_iff.1 hnodup)
    rw [List.mem_append, not_or] at hj'
    have hbelow : ∀ k ∈ below, s.drawn < k ∧ k ≠ j := fun k hk =>
      ⟨hlow k (List.mem_append_left _ hk), fun he => hj'.1 (he ▸ hk)⟩
    have habove : ∀ k ∈ above, s.drawn < k ∧ k ≠ j := fun k hk =>
      ⟨hlow k (List.mem_append_right _ (List.mem_cons_of_mem _ hk)), fun he => hj'.2 (he ▸ hk)⟩
    rw [List.map_append, List.map_append, List.map_cons, List.map_cons, map_held_take hbelow,
      map_held_take habove, held_take (by omega), if_pos rfl]
    calc
      _ ~ s.held j :: s.held s.drawn :: (below.map s.held ++ above.map s.held) :=
        List.perm_middle.cons _
      _ ~ s.held s.drawn :: s.held j :: (below.map s.held ++ above.map s.held) := .swap _ _ _
      _ ~ _ := List.perm_middle.symm.cons _

section

variable {σ : Type} (source : Source σ)

theorem nextFrom_of_lt (r : σ) (h : s.drawn < s.layout.count) :
    let position := source.draw r s.drawn s.layout.count
    s.nextFrom source r =
      some (s.layout.block (s.take position.1).1, (s.take position.1).2, position.2) :=
  if_neg (Nat.ne_of_lt h)

theorem nextFrom_eq (r : σ) (h : s.drawn < s.layout.count) : ∃ j r', s.drawn ≤ j ∧
    j < s.layout.count ∧
    s.nextFrom source r = some (s.layout.block (s.take j).1, (s.take j).2, r') :=
  ⟨_, _, source.le_draw r h, source.draw_lt r h, nextFrom_of_lt source r h⟩

/-- What a shuffle still gives are the blocks at the indexes ahead in some order, whatever numbers in
range its source gives. -/
theorem exists_order (r : σ) (n : Nat) (h : s.drawn + n = s.layout.count) :
    ∃ order, order ~ s.ahead.map s.layout.block ∧
      Enumerator.Gives (fun p : Shuffle × σ => p.1.nextFrom source p.2) (s, r) order := by
  induction n generalizing s r with
  | zero =>
    refine ⟨[], ?_, Enumerator.gives_nil (if_pos h)⟩
    rw [ahead, ← h, Nat.add_zero, Nat.sub_self]
    rfl
  | succ n ih =>
    obtain ⟨j, r', hj, hlt, hnext⟩ := s.nextFrom_eq source r (by omega)
    obtain ⟨order, hperm, hgives⟩ := ih (s := (s.take j).2) r' (by rw [drawn_take, layout_take]; omega)
    refine ⟨s.layout.block (s.take j).1 :: order, ?_, .cons hnext hgives⟩
    rw [layout_take] at hperm
    exact (hperm.cons _).trans ((take_perm hj hlt).map s.layout.block)

theorem exists_order_start (l : Layout) (r : σ) :
    ∃ order, order ~ l.blocks ∧
      Enumerator.Gives (fun p : Shuffle × σ => p.1.nextFrom source p.2) (start l, r) order := by
  have h := exists_order source (s := start l) r l.count (Nat.zero_add _)
  rwa [ahead_start] at h

end

theorem toList_start (l : Layout) (w : Words) :
    (Candidates.shuffled (start l) w).toList ~ l.blocks := by
  obtain ⟨order, hperm, hgives⟩ := exists_order_start Words.source l w
  have hcandidates : Enumerator.Gives Candidates.next (.shuffled (start l) w) order :=
    hgives.transfer (f := fun p : Shuffle × Words => Candidates.shuffled p.1 p.2) fun _ => rfl
  rw [hcandidates.toList_eq]
  · exact hperm
  · rw [hperm.length_eq, l.length_blocks]
    exact Nat.le_refl _

/-- A shuffle is made exactly where an ascending walk is, and else fails for the same reason. Whatever
numbers in range it draws, its calls give the blocks of that walk in some order, each once, and nothing
after the last. -/
theorem calls_permute_blocks (pool : Network) (length : Nat) :
    (of pool length).map (fun _ => ()) = (Ascending.of pool length).map (fun _ => ()) ∧
    ∀ shuffle walk, of pool length = .ok shuffle → Ascending.of pool length = .ok walk →
      ∃ blocks : List Network, Enumerator.Gives Ascending.next walk blocks ∧ blocks.Nodup ∧
        (blocks.length = shuffle.layout.count ∧ blocks.length = walk.layout.count) ∧
        (∀ cidr ∈ blocks, pool.includes cidr ∧ cidr.length = length ∧ cidr.trunc = cidr) ∧
        ∀ {σ : Type} (source : Source σ) (r : σ), ∃ order, order ~ blocks ∧
          Enumerator.Gives (fun p : Shuffle × σ => p.1.nextFrom source p.2) (shuffle, r) order := by
  cases hl : Layout.of pool length with
  | error e =>
    refine ⟨by simp [of, Ascending.of, hl, Except.map], fun shuffle walk hshuffle => ?_⟩
    simp [of, hl, Except.map] at hshuffle
  | ok l =>
    refine ⟨by simp [of, Ascending.of, hl, Except.map], fun shuffle walk hshuffle hwalk => ?_⟩
    simp only [of, hl, Except.map, Except.ok.injEq] at hshuffle
    simp only [Ascending.of, hl, Except.map, Except.ok.injEq] at hwalk
    subst hshuffle hwalk
    obtain ⟨rfl, rfl⟩ := l.of_eq_ok_iff.1 hl
    refine ⟨l.blocks, Ascending.gives_start l, l.nodup_blocks, ⟨l.length_blocks, l.length_blocks⟩, ?_,
      fun source r => exists_order_start source l r⟩
    intro cidr hcidr
    obtain ⟨i, hi, rfl⟩ := (l.mem_blocks cidr).1 hcidr
    exact ⟨l.includes_block hi, rfl, l.trunc_block hi⟩

/-- A pool with host bits is cut into four blocks. -/
theorem calls_permute_blocks_of_words :
    let pool : Network := ⟨⟨.v4, 0x0A00004D, by decide⟩, 24, by decide⟩
    let l : Layout := ⟨pool, 26, by decide, by decide, by decide, by decide⟩
    (of pool 26 = .ok (start l) ∧ Ascending.of pool 26 = .ok (.start l)) ∧
      ∃ order : List Network, order.Nodup ∧ order.length = 4 ∧
        Enumerator.Gives (fun p : Shuffle × Words => p.1.nextFrom Words.source p.2)
          (start l, .ofSeed 7) order := by
  intro pool l
  have hlayout : Layout.of pool 26 = .ok l := l.of_eq_ok_iff.2 ⟨rfl, rfl⟩
  have hshuffle : of pool 26 = .ok (start l) := by rw [of, hlayout]; rfl
  have hwalk : Ascending.of pool 26 = .ok (.start l) := by rw [Ascending.of, hlayout]; rfl
  obtain ⟨-, h⟩ := calls_permute_blocks pool 26
  obtain ⟨blocks, -, hnodup, ⟨hlen, -⟩, -, hsource⟩ := h _ _ hshuffle hwalk
  obtain ⟨order, hperm, hgives⟩ := hsource Words.source (.ofSeed 7)
  have hcount : blocks.length = 4 := hlen
  exact ⟨⟨hshuffle, hwalk⟩, order, hperm.nodup_iff.2 hnodup, hperm.length_eq.trans hcount, hgives⟩

end Shuffle

theorem exists_of_map_eq_ok {ε α β : Type} {x : Except ε α} {f : α → β} {b : β} (h : x.map f = .ok b) :
    ∃ a, x = .ok a ∧ f a = b := by
  cases x with
  | error e => cases h
  | ok a => exact ⟨a, rfl, Except.ok.inj h⟩

namespace Candidates

/-- Candidates begin where a walk or a shuffle of the layout begins that the pool is cut into. -/
theorem of_cases {pool : Network} {lengths : BlockLengths} {selection : Selection} {words : Words}
    {c : Candidates} (h : of pool lengths selection words = .ok c) :
    ∃ l, Layout.of pool (lengths.of pool.family) = .ok l ∧
      (c = .ascending (.start l) ∨ c = .shuffled (.start l) words) := by
  cases selection with
  | sequential =>
    obtain ⟨walk, hwalk, rfl⟩ := exists_of_map_eq_ok h
    obtain ⟨l, hl, rfl⟩ := exists_of_map_eq_ok hwalk
    exact ⟨l, hl, .inl rfl⟩
  | random =>
    obtain ⟨shuffle, hshuffle, rfl⟩ := exists_of_map_eq_ok h
    obtain ⟨l, hl, rfl⟩ := exists_of_map_eq_ok hshuffle
    exact ⟨l, hl, .inr rfl⟩

/-- Either selection gives the blocks of the layout that the pool is cut into. -/
theorem toList_of {pool : Network} {lengths : BlockLengths} {selection : Selection} {words : Words}
    {c : Candidates} (h : of pool lengths selection words = .ok c) :
    ∃ l, Layout.of pool (lengths.of pool.family) = .ok l ∧ c.toList ~ l.blocks := by
  obtain ⟨l, hl, rfl | rfl⟩ := of_cases h
  · exact ⟨l, hl, .of_eq (Ascending.toList_start l)⟩
  · exact ⟨l, hl, Shuffle.toList_start l words⟩

/-- Candidates that have just been made have a first one. -/
theorem exists_next {pool : Network} {lengths : BlockLengths} {selection : Selection} {words : Words}
    {c : Candidates} (h : of pool lengths selection words = .ok c) :
    ∃ l cidr rest, Layout.of pool (lengths.of pool.family) = .ok l ∧ c.next = some (cidr, rest) ∧
      cidr ∈ l.blocks := by
  obtain ⟨l, hl, hperm⟩ := toList_of h
  have hne : c.toList ≠ [] := by
    intro hnil
    have hlength := hperm.length_eq
    rw [hnil, l.length_blocks] at hlength
    exact Nat.ne_of_lt l.count_pos hlength
  obtain ⟨n, hn⟩ : ∃ n, c.remaining = n + 1 := by
    apply Nat.exists_eq_succ_of_ne_zero
    intro hzero
    exact hne (by rw [toList, hzero, take])
  cases hnext : c.next with
  | none => exact absurd (by rw [toList, hn, take, hnext]) hne
  | some found =>
    have hmem : found.1 ∈ c.toList := by
      rw [toList, hn, take, hnext]
      exact List.mem_cons_self
    exact ⟨l, found.1, found.2, hl, rfl, hperm.mem_iff.1 hmem⟩

theorem exists_of_eq_ok_iff {pool : Network} {lengths : BlockLengths} {selection : Selection}
    {words : Words} :
    (∃ c, of pool lengths selection words = .ok c) ↔
      ∃ l, Layout.of pool (lengths.of pool.family) = .ok l := by
  cases hl : Layout.of pool (lengths.of pool.family) <;> cases selection <;>
    simp [of, Ascending.of, Shuffle.of, hl, Except.map]

theorem of_eq_error_iff {pool : Network} {lengths : BlockLengths} {selection : Selection}
    {words : Words} {e : SizeError} :
    of pool lengths selection words = .error e ↔
      Layout.of pool (lengths.of pool.family) = .error e := by
  cases hl : Layout.of pool (lengths.of pool.family) <;> cases selection <;>
    simp [of, Ascending.of, Shuffle.of, hl, Except.map]

end Candidates

end HostBlocks
