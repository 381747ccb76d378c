import HostBlocks.Proofs.Runs
import Mathlib.Data.Finset.Card

/-!
# Claiming until no block is free

While claims of free blocks come one after the other, each takes one of the paths that are free, so
there are as many successes as there were free paths at first. Pools may overlap and blocks may share a
path: what counts is the number of paths. After that a claim finds nothing and changes nothing.
-/
namespace HostBlocks

namespace Claim

def blocksOf (settings : Settings) (pool : Network) : List Network :=
  match Layout.of pool (settings.lengths.of pool.family) with
  | .ok l => l.blocks
  | .error _ => []

/-- The paths of the blocks of the pools at which there is no record. -/
def freePaths (settings : Settings) (pools : List Network) (s : Store) : Finset String :=
  ((pools.flatMap (blocksOf settings)).map Block.pathOf).toFinset.filter fun p => s.blocks[p]? = none

variable {settings : Settings} {pools : List Network} {s : Store} {p : String}

theorem mem_blocksOf {pool cidr : Network} :
    cidr ∈ blocksOf settings pool ↔ IsBlockOf settings pool cidr := by
  unfold blocksOf
  cases hl : Layout.of pool (settings.lengths.of pool.family) with
  | ok l => simp [IsBlockOf, hl]
  | error e => simp [IsBlockOf, hl]

theorem mem_freePaths :
    p ∈ freePaths settings pools s ↔
      (∃ pool ∈ pools, ∃ cidr, IsBlockOf settings pool cidr ∧ Block.pathOf cidr = p) ∧
        s.blocks[p]? = none := by
  rw [freePaths, Finset.mem_filter, List.mem_toFinset, List.mem_map]
  simp only [List.mem_flatMap, mem_blocksOf]
  apply and_congr_left
  intro _
  constructor
  · rintro ⟨cidr, ⟨pool, hpool, hblock⟩, hpath⟩
    exact ⟨pool, hpool, cidr, hblock, hpath⟩
  · rintro ⟨pool, hpool, cidr, hblock, hpath⟩
    exact ⟨cidr, ⟨pool, hpool, hblock⟩, hpath⟩

theorem pathOf_mem_freePaths {words : Nat → Words} {cidr : Network}
    (h : cidr ∈ candidates settings words pools) (hfree : s.blocks[Block.pathOf cidr]? = none) :
    Block.pathOf cidr ∈ freePaths settings pools s := by
  obtain ⟨pool, hpool, hblock⟩ := (mem_candidates_iff settings words pools cidr).1 h
  exact mem_freePaths.2 ⟨⟨pool, hpool, cidr, hblock, rfl⟩, hfree⟩

theorem freePaths_eq_empty {words : Nat → Words}
    (h : ∀ c ∈ candidates settings words pools, ∃ stored, s.blocks[Block.pathOf c]? = some stored) :
    freePaths settings pools s = ∅ := by
  apply Finset.eq_empty_of_forall_notMem
  intro p hp
  obtain ⟨⟨pool, hpool, cidr, hblock, rfl⟩, hfree⟩ := mem_freePaths.1 hp
  obtain ⟨stored, hstored⟩ :=
    h cidr ((mem_candidates_iff settings words pools cidr).2 ⟨pool, hpool, hblock⟩)
  cases hfree.symm.trans hstored

theorem freePaths_insert {stored : Versioned Block} {affinities} :
    freePaths settings pools ⟨s.blocks.insert p stored, affinities⟩ =
      (freePaths settings pools s).erase p := by
  ext q
  rw [Finset.mem_erase, mem_freePaths, mem_freePaths, and_left_comm]
  apply and_congr_right
  intro _
  rw [Std.ExtTreeMap.getElem?_insert]
  by_cases hq : q = p
  · simp [hq]
  · have hp : ¬p = q := fun h => hq h.symm
    simp [hq, hp]

end Claim

structure Claimant where
  host : String
  policy : Policy
  words : Nat → Words

namespace Claimant

variable (settings : Settings) (catalog : Catalog) (family : Family) (requested : Option Network)

def claim (c : Claimant) : Program (Outcome Network) :=
  claimFree settings catalog c.words c.host family requested c.policy

def inTurn : List Claimant → Store → List (Outcome Network) × Store
  | [], s => ([], s)
  | c :: rest, s =>
    let first := (c.claim settings catalog family requested).run s
    let later := inTurn rest first.2
    (first.1 :: later.1, later.2)

variable {settings catalog family requested} {pools : List Network} {s : Store}

section

variable (hpools : Claim.pools catalog family requested = .ok pools)
  (hcut : ∀ pool ∈ requested, ∃ l, Layout.of pool (settings.lengths.of pool.family) = .ok l)

include hpools hcut

/-- A claim that runs alone takes one of the free paths, and if there is none it changes nothing. -/
theorem run_claim (c : Claimant) (s : Store) :
    (Claim.freePaths settings pools s = ∅ ∧
      (c.claim settings catalog family requested).run s = (.error (.noFreeBlocks family), s)) ∨
    ∃ cidr s', (c.claim settings catalog family requested).run s = (.ok cidr, s') ∧
      Block.pathOf cidr ∈ Claim.freePaths settings pools s ∧
      Claim.freePaths settings pools s' =
        (Claim.freePaths settings pools s).erase (Block.pathOf cidr) := by
  rw [claim, Claim.claimFree_eq_probe settings c.host family c.policy c.words hpools hcut]
  rcases run_probe (.done (.error (.noFreeBlocks family)))
      (Claim.candidates settings c.words pools) with ⟨htaken, hrun⟩ | ⟨front, cidr, back, hsplit, -,
      hfree, hrun⟩
  · exact Or.inl ⟨Claim.freePaths_eq_empty htaken, hrun⟩
  · have hmem : cidr ∈ Claim.candidates settings c.words pools := by
      rw [hsplit]
      exact List.mem_append_right _ List.mem_cons_self
    have hclear := Claim.trunc_of_mem_candidates hmem
    rw [Claim.found, Program.run_map, run_claimBlock_of_absent hclear hfree] at hrun
    exact Or.inr ⟨cidr, _, hrun, Claim.pathOf_mem_freePaths hmem hfree, Claim.freePaths_insert⟩

theorem card_freePaths_inTurn (claimants : List Claimant) (s : Store) :
    (Claim.freePaths settings pools (inTurn settings catalog family requested claimants s).2).card =
      (Claim.freePaths settings pools s).card - claimants.length := by
  induction claimants generalizing s with
  | nil => rfl
  | cons c rest ih =>
    simp only [inTurn, ih, List.length_cons]
    rcases run_claim hpools hcut c s with ⟨hempty, hrun⟩ | ⟨cidr, s', hrun, hfree, herase⟩
    · rw [hrun, hempty, Finset.card_empty]
      omega
    · rw [hrun, herase, Finset.card_erase_of_mem hfree]
      omega

theorem outcomes_inTurn (claimants : List Claimant) (s : Store) :
    ∃ claimed : List Network,
      (inTurn settings catalog family requested claimants s).1 = claimed.map .ok ++
        List.replicate (claimants.length - (Claim.freePaths settings pools s).card)
          (.error (.noFreeBlocks family)) ∧
      claimed.length = min claimants.length (Claim.freePaths settings pools s).card ∧
      (claimed.map Block.pathOf).Nodup ∧
      ∀ cidr ∈ claimed, Block.pathOf cidr ∈ Claim.freePaths settings pools s := by
  induction claimants generalizing s with
  | nil => exact ⟨[], by simp [inTurn]⟩
  | cons c rest ih =>
    rcases run_claim hpools hcut c s with ⟨hempty, hrun⟩ | ⟨cidr, s', hrun, hfree, herase⟩
    · obtain ⟨claimed, houtcomes, hlen, -, -⟩ := ih s
      rw [hempty, Finset.card_empty] at houtcomes hlen
      obtain rfl : claimed = [] := List.eq_nil_of_length_eq_zero (by omega)
      refine ⟨[], ?_, by simp [hempty], List.nodup_nil, nofun⟩
      simp only [inTurn, hrun, houtcomes, hempty, Finset.card_empty]
      rfl
    · obtain ⟨claimed, houtcomes, hlen, hnodup, hmem⟩ := ih s'
      have hpos : 0 < (Claim.freePaths settings pools s).card := Finset.card_pos.2 ⟨_, hfree⟩
      rw [herase, Finset.card_erase_of_mem hfree] at houtcomes hlen
      have hrest : ∀ c ∈ claimed, Block.pathOf c ≠ Block.pathOf cidr ∧
          Block.pathOf c ∈ Claim.freePaths settings pools s := by
        intro c hc
        have := hmem c hc
        rwa [herase, Finset.mem_erase] at this
      refine ⟨cidr :: claimed, ?_, ?_, ?_, ?_⟩
      · have hleft : rest.length + 1 - (Claim.freePaths settings pools s).card =
            rest.length - ((Claim.freePaths settings pools s).card - 1) := by omega
        simp only [inTurn, hrun, houtcomes, List.length_cons, hleft, List.map_cons,
          List.cons_append]
      · simp only [List.length_cons, hlen]
        omega
      · rw [List.map_cons, List.nodup_cons]
        refine ⟨fun hin => ?_, hnodup⟩
        obtain ⟨c, hc, hpath⟩ := List.mem_map.1 hin
        exact (hrest c hc).1 hpath
      · intro c hc
        rcases List.mem_cons.1 hc with rfl | hc
        · exact hfree
        · exact (hrest c hc).2

end

/-- Claims in turn succeed as many times as there are free paths, each on a path of its own that was
free at first, and every later claim finds no free block and leaves the store as it is. -/
theorem claims_drain_free_paths (settings : Settings) (catalog : Catalog) (family : Family)
    (requested : Option Network) (pools : List Network) (s : Store)
    (hpools : Claim.pools catalog family requested = .ok pools)
    (hcut : ∀ pool ∈ requested, ∃ l, Layout.of pool (settings.lengths.of pool.family) = .ok l)
    (claimants : List Claimant) :
    let free := Claim.freePaths settings pools s
    (∃ claimed : List Network,
      (inTurn settings catalog family requested claimants s).1 = claimed.map .ok ++
        List.replicate (claimants.length - free.card) (.error (.noFreeBlocks family)) ∧
      claimed.length = min claimants.length free.card ∧
      claimed.Nodup ∧ (claimed.map Block.pathOf).Nodup ∧
      ∀ cidr ∈ claimed, Block.pathOf cidr ∈ free) ∧
    (free.card ≤ claimants.length → ∀ c : Claimant,
      let now := (inTurn settings catalog family requested claimants s).2
      (c.claim settings catalog family requested).run now =
        (.error (.noFreeBlocks family), now)) := by
  intro free
  constructor
  · obtain ⟨claimed, houtcomes, hlen, hnodup, hfree⟩ := outcomes_inTurn hpools hcut claimants s
    exact ⟨claimed, houtcomes, hlen, hnodup.of_map, hnodup, hfree⟩
  · intro hcard c now
    have hnone : (Claim.freePaths settings pools now).card = 0 := by
      rw [card_freePaths_inTurn hpools hcut]
      exact Nat.sub_eq_zero_of_le hcard
    rcases run_claim hpools hcut c now with ⟨-, hrun⟩ | ⟨cidr, s', -, hmem, -⟩
    · exact hrun
    · rw [Finset.card_eq_zero.1 hnone] at hmem
      cases hmem

/-- Two pools of two blocks each, and one that is too small. A block of the first pool has the same path
as one of the second, so of five hosts that draw at random three get a block. -/
theorem claims_drain_free_paths_of_five :
    let mapped : Network := ⟨⟨.v6, 0xffff01020300, by decide⟩, 121, by decide⟩
    let plain : Network := ⟨⟨.v6, 0xffff0001000200030000, by decide⟩, 121, by decide⟩
    let small : Network := ⟨⟨.v6, 0x20010db8 * 2 ^ 96, by decide⟩, 127, by decide⟩
    let settings : Settings := ⟨.standard, 3, .random⟩
    let catalog : Catalog := .ok [⟨mapped, false⟩, ⟨small, false⟩, ⟨plain, false⟩]
    let claimants : List Claimant := ["a", "b", "c", "d", "e"].map fun host =>
      ⟨host, ⟨false⟩, fun i => .ofSeed (UInt64.ofNat (host.length + i))⟩
    Claim.pools catalog .v6 none = .ok [mapped, small, plain] ∧
      ∃ claimed : List Network, claimed.length = 3 ∧ (claimed.map Block.pathOf).Nodup ∧
        (inTurn settings catalog .v6 none claimants .empty).1 =
          claimed.map .ok ++ List.replicate 2 (.error (.noFreeBlocks .v6)) := by
  intro mapped plain small settings catalog claimants
  have hpools : Claim.pools catalog .v6 none = .ok [mapped, small, plain] := by decide +kernel
  have hcard : (Claim.freePaths settings [mapped, small, plain] .empty).card = 3 := by decide +kernel
  obtain ⟨⟨claimed, houtcomes, hlen, -, hnodup, -⟩, -⟩ :=
    claims_drain_free_paths settings catalog .v6 none _ .empty hpools nofun claimants
  rw [hcard] at houtcomes hlen
  exact ⟨hpools, claimed, hlen, hnodup, houtcomes⟩

end Claimant

end HostBlocks
