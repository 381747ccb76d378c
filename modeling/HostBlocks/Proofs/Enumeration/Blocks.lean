import HostBlocks.Proofs.Enumeration.Calls
import Mathlib.Data.List.Nodup

/-!
# The blocks of a layout, in order

The block at an index begins that many block sizes above the base of the pool. Up to the count of a
layout these are networks without host bits that lie in the pool, and the ascending walk gives each
of them once, in the order of their indexes.
-/
namespace HostBlocks

namespace Layout

variable (l : Layout)

def first (index : Nat) : Nat := l.pool.base + index <<< l.hostBits

def blocks : List Network := (List.range l.count).map l.block

theorem mem_blocks (cidr : Network) : cidr ∈ l.blocks ↔ ∃ i < l.count, l.block i = cidr := by
  simp [blocks]

theorem length_blocks : l.blocks.length = l.count := by
  simp [blocks]

theorem first_eq (i : Nat) : l.first i = l.pool.base + i * 2 ^ l.hostBits := by
  rw [first, Nat.shiftLeft_eq]

theorem first_succ (i : Nat) : l.first (i + 1) = l.first i + 1 <<< l.hostBits := by
  rw [first_eq, first_eq, Nat.shiftLeft_eq, Nat.add_mul, Nat.add_assoc]

/-- The size of a pool is that of all its blocks together. -/
theorem two_pow_pool_hostBits : 2 ^ l.pool.hostBits = l.count * 2 ^ l.hostBits := by
  have hle := l.length_le
  have hpool := l.pool_le
  rw [count, ← Nat.pow_add]
  congr 1
  simp only [Network.hostBits, hostBits]
  omega

theorem last_pool : l.pool.last = l.first l.count - 1 := by
  have hpos := Nat.two_pow_pos l.pool.hostBits
  rw [Network.last, first_eq, ← l.two_pow_pool_hostBits]
  omega

/-- A block that begins inside the pool also ends inside it. -/
theorem first_add_le {i : Nat} (hi : i < l.count) :
    l.first i + (2 ^ l.hostBits - 1) ≤ l.pool.last := by
  have hpos := Nat.two_pow_pos l.hostBits
  have hmul : (i + 1) * 2 ^ l.hostBits ≤ l.count * 2 ^ l.hostBits :=
    Nat.mul_le_mul_right _ hi
  rw [Nat.add_mul, Nat.one_mul] at hmul
  rw [last_pool, first_eq, first_eq]
  omega

theorem first_lt {i : Nat} (hi : i < l.count) : l.first i < 2 ^ l.pool.family.width := by
  have h := l.first_add_le hi
  have hlast := l.pool.last_lt
  omega

theorem two_pow_dvd_first (i : Nat) : 2 ^ l.hostBits ∣ l.first i := by
  have hsize : 2 ^ l.hostBits ∣ 2 ^ l.pool.hostBits := by
    rw [l.two_pow_pool_hostBits]
    exact Nat.dvd_mul_left _ _
  rw [first_eq]
  exact Nat.dvd_add (Nat.dvd_trans hsize l.pool.base_dvd) (Nat.dvd_mul_left _ _)

@[simp] theorem family_block (i : Nat) : (l.block i).family = l.pool.family := rfl

@[simp] theorem length_block (i : Nat) : (l.block i).length = l.length := rfl

@[simp] theorem hostBits_block (i : Nat) : (l.block i).hostBits = l.hostBits := rfl

theorem bits_block {i : Nat} (hi : i < l.count) : (l.block i).address.bits = l.first i :=
  Nat.mod_eq_of_lt (l.first_lt hi)

theorem base_block {i : Nat} (hi : i < l.count) : (l.block i).base = l.first i := by
  rw [Network.base, l.bits_block hi, hostBits_block, Nat.div_mul_cancel (l.two_pow_dvd_first i)]

theorem last_block {i : Nat} (hi : i < l.count) :
    (l.block i).last = l.first i + (2 ^ l.hostBits - 1) := by
  rw [Network.last, l.base_block hi, hostBits_block]

/-- Blocks have no host bits. -/
theorem trunc_block {i : Nat} (hi : i < l.count) : (l.block i).trunc = l.block i := by
  apply Network.ext
  · exact Address.ext rfl ((l.base_block hi).trans (l.bits_block hi).symm)
  · rfl

theorem includes_block {i : Nat} (hi : i < l.count) : l.pool.includes (l.block i) := by
  rw [Network.includes_iff, l.base_block hi, l.last_block hi]
  exact ⟨rfl, Nat.le_add_right _ _, l.first_add_le hi⟩

theorem block_inj {i j : Nat} (hi : i < l.count) (hj : j < l.count) :
    l.block i = l.block j ↔ i = j := by
  constructor
  · intro h
    have hfirst := congrArg Network.base h
    rw [l.base_block hi, l.base_block hj, l.first_eq, l.first_eq] at hfirst
    exact Nat.eq_of_mul_eq_mul_right (Nat.two_pow_pos l.hostBits) (Nat.add_left_cancel hfirst)
  · rintro rfl
    rfl

theorem nodup_blocks : l.blocks.Nodup := by
  apply List.Nodup.map_on _ List.nodup_range
  intro i hi j hj h
  exact (l.block_inj (List.mem_range.1 hi) (List.mem_range.1 hj)).1 h

theorem trunc_of_mem_blocks {cidr : Network} (h : cidr ∈ l.blocks) : cidr.trunc = cidr := by
  obtain ⟨i, hi, rfl⟩ := (l.mem_blocks cidr).1 h
  exact l.trunc_block hi

end Layout

namespace Ascending

variable (l : Layout)

def after (k : Nat) : Ascending := ⟨l, if k < l.count then some (l.first k) else none⟩

theorem start_eq_after : start l = after l 0 := by
  rw [start, after, if_pos l.count_pos]
  congr 2
  simp [Layout.first]

theorem following_first {k : Nat} (hk : k < l.count) :
    (after l k).following (l.first k) = (after l (k + 1)).cursor := by
  have hpos := Nat.two_pow_pos l.hostBits
  simp only [following, after, ← l.first_succ]
  by_cases h : k + 1 < l.count
  · rw [if_pos h, if_pos]
    exact Nat.le_trans (Nat.le_add_right _ _) (l.first_add_le h)
  · rw [if_neg h, if_neg]
    have hcount : k + 1 = l.count := by omega
    have hone : 2 ^ l.hostBits ≤ l.count * 2 ^ l.hostBits :=
      Nat.le_mul_of_pos_left _ l.count_pos
    rw [hcount, l.last_pool, l.first_eq]
    omega

theorem next_after (k : Nat) :
    (after l k).next = if k < l.count then some (l.block k, after l (k + 1)) else none := by
  by_cases hk : k < l.count
  · have hcursor : (after l k).cursor = some (l.first k) := if_pos hk
    rw [next, hcursor, if_pos hk, Option.map_some, following_first l hk]
    rfl
  · have hcursor : (after l k).cursor = none := if_neg hk
    rw [next, hcursor, if_neg hk, Option.map_none]

theorem remaining_after (k : Nat) : (after l k).remaining = l.count - k := by
  by_cases hk : k < l.count
  · have hcursor : (after l k).cursor = some (l.first k) := if_pos hk
    have hpos := Nat.two_pow_pos l.hostBits
    obtain ⟨m, hm⟩ : ∃ m, l.count = k + 1 + m := ⟨l.count - (k + 1), by omega⟩
    have hlast : l.pool.last - l.first k = m * 2 ^ l.hostBits + (2 ^ l.hostBits - 1) := by
      rw [l.last_pool, l.first_eq, l.first_eq, hm, Nat.add_mul, Nat.add_mul, Nat.one_mul]
      omega
    have hdiv : (m * 2 ^ l.hostBits + (2 ^ l.hostBits - 1)) / 2 ^ l.hostBits = m := by
      rw [Nat.add_comm, Nat.add_mul_div_right _ _ hpos, Nat.div_eq_of_lt (by omega), Nat.zero_add]
    simp only [remaining, hcursor, show (after l k).layout = l from rfl]
    rw [Nat.shiftRight_eq_div_pow, hlast, hdiv]
    omega
  · have hcursor : (after l k).cursor = none := if_neg hk
    simp only [remaining, hcursor]
    omega

/-- What an ascending walk still gives are the blocks from its place on. -/
theorem gives_after (k n : Nat) (h : k + n = l.count) :
    Enumerator.Gives next (after l k) ((List.range' k n).map l.block) := by
  induction n generalizing k with
  | zero =>
    apply Enumerator.gives_nil
    rw [next_after, if_neg (by omega)]
  | succ n ih =>
    have hnext : (after l k).next = some (l.block k, after l (k + 1)) := by
      rw [next_after, if_pos (by omega)]
    rw [List.range'_succ, List.map_cons]
    exact .cons hnext (ih (k + 1) (by omega))

theorem gives_start : Enumerator.Gives next (start l) l.blocks := by
  rw [start_eq_after, Layout.blocks, List.range_eq_range']
  exact gives_after l 0 l.count (Nat.zero_add _)

theorem toList_start : (Candidates.ascending (start l)).toList = l.blocks := by
  have hgives : Enumerator.Gives Candidates.next (.ascending (start l)) l.blocks :=
    (gives_start l).transfer fun _ => rfl
  apply hgives.toList_eq
  rw [Candidates.remaining, start_eq_after, remaining_after, l.length_blocks]
  exact Nat.le_refl _

end Ascending

end HostBlocks
