import HostBlocks.Proofs.Enumeration.Permutation

/-!
# The ascending walk partitions a pool

An address of a pool tells the block it lies in: the index of the block is the distance of the address
from the base of the pool, counted in block sizes. So the blocks that the walk gives cover the pool and
nothing else, each address once, and one block ends before the next begins.
-/
namespace HostBlocks

namespace Layout

variable (l : Layout)

def indexOf (a : Address) : Nat := (a.bits - l.pool.base) / 2 ^ l.hostBits

theorem indexOf_lt {a : Address} (h : l.pool.contains a) : l.indexOf a < l.count := by
  have hpos := Nat.two_pow_pos l.pool.hostBits
  obtain ⟨-, -, hlast⟩ := (l.pool.contains_iff a).1 h
  rw [indexOf, Nat.div_lt_iff_lt_mul (Nat.two_pow_pos _), ← l.two_pow_pool_hostBits]
  rw [Network.last] at hlast
  omega

/-- A block has the addresses of the pool with its index. -/
theorem contains_block_iff {k : Nat} (hk : k < l.count) (a : Address) :
    (l.block k).contains a ↔ l.pool.contains a ∧ l.indexOf a = k := by
  have hpos := Nat.two_pow_pos l.hostBits
  have hlast := l.first_add_le hk
  rw [Network.contains_iff, Network.contains_iff, family_block, l.base_block hk, l.last_block hk,
    indexOf, Nat.div_eq_iff hpos]
  rw [l.first_eq] at hlast ⊢
  constructor
  · rintro ⟨hfamily, hlow, hhigh⟩
    exact ⟨⟨hfamily, by omega, by omega⟩, by omega, by omega⟩
  · rintro ⟨⟨hfamily, hbase, -⟩, hlow, hhigh⟩
    exact ⟨hfamily, by omega, by omega⟩

theorem getElem?_blocks (k : Nat) : l.blocks[k]? = if k < l.count then some (l.block k) else none := by
  by_cases hk : k < l.count <;> simp [blocks, hk]

theorem existsUnique_block_iff (a : Address) :
    (∃! k, k < l.count ∧ (l.block k).contains a) ↔ l.pool.contains a := by
  constructor
  · rintro ⟨k, ⟨hk, ha⟩, -⟩
    exact ((l.contains_block_iff hk a).1 ha).1
  · intro ha
    have hk := l.indexOf_lt ha
    refine ⟨l.indexOf a, ⟨hk, (l.contains_block_iff hk a).2 ⟨ha, rfl⟩⟩, ?_⟩
    rintro k ⟨hk', ha'⟩
    exact ((l.contains_block_iff hk' a).1 ha').2.symm

/-- A block ends before the blocks of higher index begin. -/
theorem last_block_lt_base {i j : Nat} (hij : i < j) (hj : j < l.count) :
    (l.block i).last < (l.block j).base := by
  have hpos := Nat.two_pow_pos l.hostBits
  have hmul : (i + 1) * 2 ^ l.hostBits ≤ j * 2 ^ l.hostBits := Nat.mul_le_mul_right _ hij
  rw [Nat.add_mul, Nat.one_mul] at hmul
  rw [l.last_block (Nat.lt_trans hij hj), l.base_block hj, l.first_eq, l.first_eq]
  omega

theorem not_contains_of_lt {i j : Nat} (hij : i < j) (hj : j < l.count) (a : Address) :
    ¬((l.block i).contains a ∧ (l.block j).contains a) := by
  rintro ⟨hi', hj'⟩
  have hlt := l.last_block_lt_base hij hj
  have hi := ((Network.contains_iff _ a).1 hi').2.2
  have hj := ((Network.contains_iff _ a).1 hj').2.1
  omega

end Layout

namespace Ascending

/-- A walk is made exactly if the length of the blocks is one of the family's, not below that of the
pool, and not 128 or more above it. Its calls give the blocks at the base of the pool and each block
size above it, as many as there are, and nothing from then on. Each block ends before the next, and an
address lies in the pool exactly if it lies in one of the blocks, and then in no other. -/
theorem walk_partitions_pool (pool : Network) (length : Nat) :
    ((∃ walk, of pool length = .ok walk) ↔
      1 ≤ length ∧ length ≤ pool.family.width ∧ pool.length ≤ length ∧
        length - pool.length < 128) ∧
    ∀ walk, of pool length = .ok walk →
      let count := 2 ^ (length - pool.length)
      let block := walk.layout.block
      walk.layout.count = count ∧
      (∀ k, Enumerator.answer next k walk = if k < count then some (block k) else none) ∧
      (∀ k < count, (block k).family = pool.family ∧ (block k).length = length ∧
        (block k).address.bits = pool.base + k * 2 ^ (pool.family.width - length)) ∧
      (∃ shuffle, Shuffle.of pool length = .ok shuffle ∧ shuffle.layout.block = block) ∧
      (∀ i j, i < j → j < count → (block i).last < (block j).base ∧
        ∀ a, ¬((block i).contains a ∧ (block j).contains a)) ∧
      ∀ a, pool.contains a ↔ ∃! k, k < count ∧ (block k).contains a := by
  rw [← Layout.exists_of_eq_ok_iff]
  cases hl : Layout.of pool length with
  | error e => simp [of, hl, Except.map]
  | ok l =>
    have hof : of pool length = .ok (start l) := by rw [of, hl, Except.map]
    refine ⟨iff_of_true ⟨_, hof⟩ ⟨l, rfl⟩, fun walk hwalk => ?_⟩
    obtain rfl : start l = walk := Except.ok.inj (hof.symm.trans hwalk)
    obtain ⟨rfl, rfl⟩ := l.of_eq_ok_iff.1 hl
    intro count block
    refine ⟨rfl, fun k => ?_, fun k hk => ⟨rfl, rfl, ?_⟩, ⟨.start l, ?_, rfl⟩,
      fun i j hij hj => ⟨l.last_block_lt_base hij hj, l.not_contains_of_lt hij hj⟩, fun a => ?_⟩
    · rw [gives_start l k, l.getElem?_blocks]
      rfl
    · exact (l.bits_block hk).trans (l.first_eq k)
    · rw [Shuffle.of, hl, Except.map]
    · exact (l.existsUnique_block_iff a).symm

/-- A pool with host bits at the very end of the addresses has four blocks. -/
theorem walk_partitions_pool_at_end :
    let pool : Network := ⟨⟨.v6, 2 ^ 128 - 59, by decide⟩, 121, by decide⟩
    let l : Layout := ⟨pool, 123, by decide, by decide, by decide, by decide⟩
    of pool 123 = .ok (start l) ∧
      (∀ k, Enumerator.answer next k (start l) = if k < 4 then some (l.block k) else none) ∧
      (l.block 3).address.bits = 2 ^ 128 - 32 ∧
      ∀ a, pool.contains a ↔ ∃! k, k < 4 ∧ (l.block k).contains a := by
  intro pool l
  have hwalk : of pool 123 = .ok (start l) := by rw [of, l.of_eq_ok_iff.2 ⟨rfl, rfl⟩, Except.map]
  obtain ⟨-, h⟩ := walk_partitions_pool pool 123
  obtain ⟨-, hanswer, hblock, -, -, hcovers⟩ := h _ hwalk
  have hbits : pool.base + 3 * 2 ^ (pool.family.width - 123) = 2 ^ 128 - 32 := by decide +kernel
  exact ⟨hwalk, hanswer, (hblock 3 (by decide)).2.2.trans hbits, hcovers⟩

end Ascending

end HostBlocks
