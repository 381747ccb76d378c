import HostBlocks.Proofs.FirstFree

/-!
# Giving a claimed block back

A host that claims a free block and releases it, with no other call in between, leaves the block records
as they were. Of the affinity records only its own for the block may be missing afterwards, one that an
earlier claim left behind. In ascending order the next claim in the same pools takes the block again.
-/
namespace HostBlocks

variable {s : Store} {host : String} {policy : Policy} {cidr : Network}

/-- A claimed block is empty and owned by the host, so that one round of a release removes its record. -/
theorem run_releaseBlock_claiming (hclear : cidr.trunc = cidr) (hfree : s.isFree cidr) {bound : Nat}
    (hbound : 1 ≤ bound) :
    (releaseBlock bound host cidr).run (s.claiming cidr host policy) = (.ok ⟨cidr, .deleted, none⟩,
      ⟨s.blocks, s.affinities.erase (Affinity.path ⟨host, cidr⟩)⟩) := by
  obtain ⟨left, rfl⟩ := Nat.exists_eq_add_of_le' hbound
  have hs : (s.claiming cidr host policy).blocks[Block.pathOf cidr]? =
      some ⟨⟨cidr, some host, policy.strictAffinity, ∅⟩, .initial⟩ := Std.ExtTreeMap.getElem?_insert_self
  have ho : ¬Block.isOwnedByOther ⟨cidr, some host, policy.strictAffinity, ∅⟩ host := by
    simp [Block.isOwnedByOther]
  have he : Block.isEmpty ⟨cidr, some host, policy.strictAffinity, ∅⟩ := by simp [Block.isEmpty]
  have hblocks : (s.claiming cidr host policy).blocks.erase (Block.pathOf cidr) = s.blocks :=
    Records.erase_insert.trans (Records.erase_of_absent (Option.isNone_iff_eq_none.1 hfree))
  have hentry : Affinity.of host cidr = ⟨host, cidr⟩ := congrArg (Affinity.mk host) hclear
  rw [releaseBlock, Release.rounds, run_round_of_empty _ hs ho he, hblocks, hentry,
    Store.deleteAffinity_eq, Store.claiming, Records.erase_insertIfNew]

namespace Claim

/-- A claim of any free block, directly followed by the release of the block by the same host, changes
nothing but that an affinity record of the host for the block is gone. In ascending order a claim by any
host in the same pools takes the block again after that. -/
theorem release_undoes_claim (settings : Settings) (hrounds : 1 ≤ settings.releaseRounds)
    (catalog : Catalog) (words : Nat → Words) (host : String) (family : Family)
    (requested : Option Network) (policy : Policy) (s : Store) (cidr : Network)
    (hclaimed : ((claimFree settings catalog words host family requested policy).run s).1 = .ok cidr) :
    let claimed := (claimFree settings catalog words host family requested policy).run s
    let released := (releaseBlock settings.releaseRounds host cidr).run claimed.2
    let entry : Affinity := ⟨host, cidr⟩
    released = (.ok ⟨cidr, .deleted, none⟩, ⟨s.blocks, s.affinities.erase entry.path⟩) ∧
    (s.affinities[entry.path]? = none → released.2 = s) ∧
    (settings.selection = .sequential → ∀ words' host' policy',
      ((claimFree settings catalog words' host' family requested policy').run released.2).1 =
        .ok cidr) := by
  intro claimed released entry
  obtain ⟨pools, hpools, hcut, hfind⟩ := find?_of_claimed hclaimed
  obtain ⟨pool, -, hblock⟩ := (mem_candidates_iff settings words pools cidr).1
    (List.mem_of_find?_eq_some hfind)
  have hafter : claimed.2 = s.claiming cidr host policy := by
    simp only [claimed, run_claimFree_find s host policy words hpools hcut, hfind]
  have hreleased : released =
      (.ok ⟨cidr, .deleted, none⟩, ⟨s.blocks, s.affinities.erase entry.path⟩) := by
    simp only [released, hafter]
    exact run_releaseBlock_claiming hblock.trunc_eq (List.find?_some hfind) hrounds
  refine ⟨hreleased, fun habsent => ?_, fun hselection words' host' policy' => ?_⟩
  · rw [hreleased, Records.erase_of_absent habsent]
  · have hagain : (candidates settings words' pools).find? released.2.isFree = some cidr := by
      rw [hreleased, candidates_sequential hselection words' pools,
        ← candidates_sequential hselection words pools]
      exact hfind
    rw [run_claimFree_find released.2 host' policy' words' hpools hcut, hagain]

/-- The first block of the pool is taken, and the host has an old affinity record for the second. -/
theorem release_undoes_claim_of_listed :
    let network (a : Nat) (h : a < 2 ^ 32) (length : Nat) (hl : length ≤ 32) : Network :=
      ⟨⟨.v4, a, h⟩, length, hl⟩
    let pool := network 0x0A000000 (by decide) 24 (by decide)
    let second := network 0x0A000040 (by decide) 26 (by decide)
    let s : Store := ⟨(Store.empty.claiming (network 0x0A000000 (by decide) 26 (by decide)) "a"
      ⟨false⟩).blocks, (Store.empty.claiming second "b" ⟨true⟩).affinities⟩
    let catalog : Catalog := .ok [⟨pool, false⟩]
    let claimed := (claimFree .standard catalog (fun _ => .ofSeed 0) "b" .v4 none ⟨true⟩).run s
    let released := (releaseBlock defaultReleaseRounds "b" second).run claimed.2
    claimed.1 = .ok second ∧ released = (.ok ⟨second, .deleted, none⟩, ⟨s.blocks, ∅⟩) ∧
      ((claimFree .standard catalog (fun _ => .ofSeed 0) "c" .v4 none ⟨false⟩).run released.2).1 =
        .ok second := by
  intro network pool second s catalog claimed released
  have hclaimed : claimed.1 = .ok second := by decide +kernel
  obtain ⟨hreleased, -, hagain⟩ := release_undoes_claim .standard (by decide) catalog
    (fun _ => .ofSeed 0) "b" .v4 none ⟨true⟩ s second hclaimed
  have hgone : s.affinities.erase (Affinity.path ⟨"b", second⟩) = ∅ := by decide +kernel
  exact ⟨hclaimed, hreleased.trans (by rw [hgone]), hagain rfl _ _ _⟩

end Claim

end HostBlocks
