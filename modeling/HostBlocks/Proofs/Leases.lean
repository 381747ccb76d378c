import HostBlocks.Record
import Mathlib.Data.List.Nodup
import Mathlib.Data.List.Perm.Subperm

/-!
# Leases of a block

An address is leased once, and only if it lies in the block. So the leases of a new block are the
addresses of its range among those it was asked to lease, each answer tells a first request from a
repeated or foreign one, and there are never more leases than addresses in the range.
-/
namespace HostBlocks.Block

def markEach : Block → List Address → List Bool × Block
  | b, [] => ([], b)
  | b, a :: rest =>
    let (answer, marked) := b.mark a
    let (answers, last) := marked.markEach rest
    (answer :: answers, last)

variable {b : Block} {a x : Address} {asked : List Address}

theorem mark_eq_true_iff : (b.mark a).1 = true ↔ b.cidr.contains a ∧ a ∉ b.allocated := by
  have hanswer : (b.mark a).1 = (b.cidr.contains a && !b.allocated.contains a) := by
    unfold mark
    split
    · next h => exact h.symm
    · next h => exact (Bool.eq_false_iff.2 h).symm
  rw [hanswer, Bool.and_eq_true, Bool.not_eq_true', ← Bool.not_eq_true,
    Std.ExtTreeSet.contains_iff_mem]

/-- A lease is counted exactly if the answer is that it was given. -/
theorem size_mark : (b.mark a).2.allocated.size = b.allocated.size + (b.mark a).1.toNat := by
  unfold mark
  split
  · next h =>
    rw [Bool.and_eq_true, Bool.not_eq_true'] at h
    rw [Std.ExtTreeSet.size_insert, h.2]
    rfl
  · rfl

theorem length_markEach : (b.markEach asked).1.length = asked.length := by
  induction asked generalizing b with
  | nil => rfl
  | cons a rest ih => simp [markEach, ih]

theorem cidr_markEach : (b.markEach asked).2.cidr = b.cidr := by
  induction asked generalizing b with
  | nil => rfl
  | cons a rest ih => exact ih.trans (b.cidr_mark a)

theorem mem_markEach :
    x ∈ (b.markEach asked).2.allocated ↔ x ∈ b.allocated ∨ x ∈ asked ∧ b.cidr.contains x := by
  induction asked generalizing b with
  | nil => simp [markEach]
  | cons a rest ih =>
    rw [markEach, ih, mem_mark, cidr_mark, List.mem_cons]
    constructor
    · rintro ((hx | ⟨rfl, hx⟩) | ⟨hmem, hx⟩)
      · exact Or.inl hx
      · exact Or.inr ⟨Or.inl rfl, hx⟩
      · exact Or.inr ⟨Or.inr hmem, hx⟩
    · rintro (hx | ⟨rfl | hmem, hx⟩)
      · exact Or.inl (Or.inl hx)
      · exact Or.inl (Or.inr ⟨rfl, hx⟩)
      · exact Or.inr ⟨hmem, hx⟩

/-- An address is leased when it is first asked for, if it lies in the block and is free. -/
theorem markEach_eq_true_iff (i : Nat) :
    (b.markEach asked).1[i]? = some true ↔
      ∃ x, asked[i]? = some x ∧ b.cidr.contains x ∧ x ∉ b.allocated ∧ x ∉ asked.take i := by
  induction asked generalizing b i with
  | nil => simp [markEach]
  | cons a rest ih =>
    cases i with
    | zero => simp [markEach, mark_eq_true_iff]
    | succ i =>
      simp only [markEach, List.getElem?_cons_succ, List.take_succ_cons, List.mem_cons, ih, cidr_mark,
        mem_mark]
      apply exists_congr
      intro x
      constructor
      · rintro ⟨hx, hcontains, hfree, hearlier⟩
        refine ⟨hx, hcontains, fun h => hfree (Or.inl h), ?_⟩
        rintro (rfl | h)
        · exact hfree (Or.inr ⟨rfl, hcontains⟩)
        · exact hearlier h
      · rintro ⟨hx, hcontains, hfree, hearlier⟩
        refine ⟨hx, hcontains, ?_, fun h => hearlier (Or.inr h)⟩
        rintro (h | ⟨rfl, -⟩)
        · exact hfree h
        · exact hearlier (Or.inl rfl)

theorem size_markEach :
    (b.markEach asked).2.allocated.size = b.allocated.size + (b.markEach asked).1.count true := by
  induction asked generalizing b with
  | nil => rfl
  | cons a rest ih =>
    rw [markEach, ih, size_mark, List.count_cons, Nat.add_assoc]
    cases (b.mark a).1 <;> simp [Nat.add_comm]

/-- A block whose leases lie in its range has no more of them than the range has addresses. -/
theorem size_allocated_le (h : ∀ a ∈ b.allocated, b.cidr.contains a) :
    b.allocated.size ≤ 2 ^ b.cidr.hostBits := by
  have hcontains : ∀ a ∈ b.allocated.toList,
      b.cidr.family = a.family ∧ b.cidr.base ≤ a.bits ∧ a.bits ≤ b.cidr.last := fun a ha =>
    (b.cidr.contains_iff a).1 (h a (Std.ExtTreeSet.mem_toList.1 ha))
  have hnodup : (b.allocated.toList.map Address.bits).Nodup := by
    have hdistinct : b.allocated.toList.Nodup :=
      Std.ExtTreeSet.distinct_toList.imp fun hne heq => hne (Std.LawfulEqCmp.compare_eq_iff_eq.2 heq)
    refine List.Nodup.map_on (fun x hx y hy hbits => ?_) hdistinct
    exact Address.ext ((hcontains x hx).1.symm.trans (hcontains y hy).1) hbits
  have hsub : b.allocated.toList.map Address.bits ⊆ List.range' b.cidr.base (2 ^ b.cidr.hostBits) := by
    rintro _ hbits
    obtain ⟨a, ha, rfl⟩ := List.mem_map.1 hbits
    obtain ⟨-, hbase, hlast⟩ := hcontains a ha
    rw [Network.last] at hlast
    have hpos := Nat.two_pow_pos b.cidr.hostBits
    exact List.mem_range'_1.2 ⟨hbase, by omega⟩
  have hle := (List.subperm_of_subset hnodup hsub).length_le
  rwa [List.length_map, List.length_range', Std.ExtTreeSet.length_toList] at hle

/-- The leases of a new block that is asked for addresses in turn are those of them that are of its family
and in its range. An address is leased exactly where it is first asked for and lies in the range, and there
are as many such answers as leases, at most one for each address of the range. -/
theorem leases_stay_inside (cidr : Network) (asked : List Address) :
    let answers := ((of cidr).markEach asked).1
    let leased := ((of cidr).markEach asked).2.allocated
    let inRange (a : Address) := a.family = cidr.family ∧ cidr.base ≤ a.bits ∧ a.bits ≤ cidr.last
    (∀ a, a ∈ leased ↔ a ∈ asked ∧ inRange a) ∧
    answers.length = asked.length ∧
    (∀ i, answers[i]? = some true ↔ ∃ a, asked[i]? = some a ∧ inRange a ∧ a ∉ asked.take i) ∧
    answers.count true = leased.size ∧
    leased.size ≤ 2 ^ (cidr.family.width - cidr.length) := by
  intro answers leased inRange
  have hrange : ∀ a, (of cidr).cidr.contains a ↔ inRange a := by
    intro a
    rw [Network.contains_iff, of, Network.family_trunc, Network.base_trunc, Network.last_trunc, eq_comm]
  have hnone : ∀ a, a ∉ (of cidr).allocated := fun a => Std.ExtTreeSet.not_mem_empty
  have hleased : ∀ a, a ∈ leased ↔ a ∈ asked ∧ inRange a := by
    intro a
    rw [mem_markEach, hrange, or_iff_right (hnone a)]
  refine ⟨hleased, length_markEach, fun i => ?_, ?_, ?_⟩
  · simp only [answers, markEach_eq_true_iff, hrange, hnone, not_false_eq_true, true_and]
  · exact (size_markEach.trans (Nat.zero_add _)).symm
  · have hinside : ∀ a ∈ leased, ((of cidr).markEach asked).2.cidr.contains a := by
      intro a ha
      rw [cidr_markEach, hrange]
      exact ((hleased a).1 ha).2
    have hle := size_allocated_le hinside
    rwa [cidr_markEach] at hle

end HostBlocks.Block
