import HostBlocks.Proofs.Outcomes

/-!
# Claims and the questions about pools

Which pools a claim may search and which addresses lie in a configured pool are decided apart from each
other, and blocks are computed from the base of a pool without asking either. They agree: every address
of a block that is claimed lies in a configured pool, and a claim refuses a pool as not configured exactly
if that is what the catalog says of it.
-/
namespace HostBlocks

namespace Catalog

variable {configured : List Pool} {family : Family} {requested : Option Network}
variable {settings : Settings} {resolved : List Network} {pool cidr : Network}

/-- The addresses of a block of an eligible pool are covered. -/
theorem covers_of_isBlockOf {p : Pool} {a : Address} (hp : p ∈ configured)
    (heligible : p.isEligible family) (hblock : Claim.IsBlockOf settings p.cidr cidr)
    (ha : cidr.contains a) : covers (.ok configured) a := by
  have hpool : p.cidr.contains a := (p.cidr.includes_iff_contains cidr).1 hblock.fits.2.2 a ha
  have hfamily : family = a.family :=
    ((p.isEligible_iff family).1 heligible).2.symm.trans ((p.cidr.contains_iff a).1 hpool).1
  exact (covers_ok configured a).2 ⟨p, hp, hfamily ▸ heligible, hpool⟩

theorem hasPool_of_resolved
    (h : Claim.pools (.ok configured) family (some pool) = .ok resolved) :
    hasPool (.ok configured) pool := by
  simp only [Claim.pools] at h
  split at h
  · next hnamed => exact hnamed
  · cases h

end Catalog

namespace Claim

theorem pools_of_not_hasPool {configured : List Pool} {pool : Network} (family : Family)
    (h : Catalog.hasPool (.ok configured) pool = false) :
    pools (.ok configured) family (some pool) = .error (.poolNotConfigured pool) := by
  simp only [Catalog.hasPool] at h
  simp [pools, h]

/-- A claim that runs alone and succeeds has claimed a block of the family, inside the requested pool if
there is one, which then is configured, and all addresses of the block are covered by configured pools.
A claim of a requested pool is refused because that is not configured exactly if it is not. -/
theorem claims_agree_with_catalog (settings : Settings) (configured : List Pool) (words : Nat → Words)
    (host : String) (family : Family) (policy : Policy) (s : Store) :
    (∀ requested cidr,
      ((claimFree settings (.ok configured) words host family requested policy).run s).1 = .ok cidr →
      cidr.family = family ∧
      (∀ pool ∈ requested, pool.includes cidr ∧ Catalog.hasPool (.ok configured) pool) ∧
      ∀ a, cidr.contains a → Catalog.covers (.ok configured) a) ∧
    ∀ pool refused,
      ((claimFree settings (.ok configured) words host family (some pool) policy).run s).1 =
          .error (.poolNotConfigured refused) ↔
        refused = pool ∧ Catalog.hasPool (.ok configured) pool = false := by
  constructor
  · intro requested cidr hrun
    cases answers_of_run hrun with
    | @claimed resolved pool _ hpools hpool hblock =>
      obtain ⟨_, ⟨⟩, p, hp, heligible, rfl⟩ := eligible_of_mem_pools family hpools hpool
      refine ⟨?_, ?_, fun a ha => Catalog.covers_of_isBlockOf hp heligible hblock ha⟩
      · exact hblock.fits.1.trans ((p.isEligible_iff family).1 heligible).2
      · rintro asked rfl
        have hresolved := pools_requested family hpools
        rw [hresolved, List.mem_singleton] at hpool
        exact ⟨hpool ▸ hblock.fits.2.2, Catalog.hasPool_of_resolved hpools⟩
  · intro pool refused
    constructor
    · intro hrun
      cases answers_of_run hrun with
      | unresolved hpools =>
        rcases pools_error_cases family hpools with ⟨_, ⟨⟩, -⟩ | ⟨_, _, ⟨⟩, ⟨⟩, hnone, ⟨⟩⟩ |
          ⟨_, -, -, ⟨⟩⟩ | ⟨⟨⟩, -⟩
        exact ⟨rfl, hnone⟩
    · rintro ⟨rfl, hnone⟩
      simp only [claimFree, pools_of_not_hasPool family hnone, Program.run_done]

/-- The second of the blocks of a pool with host bits, in a catalog with a disabled pool around it. The
same pool without host bits is not one of the catalog. -/
theorem claims_agree_with_catalog_of_host_bits :
    let pool : Network := ⟨⟨.v4, 0x0A00004D, by decide⟩, 24, by decide⟩
    let block : Network := ⟨⟨.v4, 0x0A000040, by decide⟩, 26, by decide⟩
    let around : Network := ⟨⟨.v4, 0x0A000000, by decide⟩, 8, by decide⟩
    let configured : List Pool := [⟨around, true⟩, ⟨pool, false⟩]
    let taken := (Store.empty.createBlock (.of ⟨⟨.v4, 0x0A000000, by decide⟩, 26, by decide⟩)).2
    let claim (requested : Network) := (claimFree .standard (.ok configured) (fun _ => .cycle []) "host"
      .v4 (some requested) ⟨false⟩).run taken
    (claim pool).1 = .ok block ∧ Catalog.hasPool (.ok configured) pool ∧
      (∀ a, block.contains a → Catalog.covers (.ok configured) a) ∧
      (claim pool.trunc).1 = .error (.poolNotConfigured pool.trunc) := by
  intro pool block around configured taken claim
  have hclaim : (claim pool).1 = .ok block := by decide +kernel
  obtain ⟨hclaimed, hrefused⟩ := claims_agree_with_catalog .standard configured (fun _ => .cycle [])
    "host" .v4 ⟨false⟩ taken
  obtain ⟨-, hpool, hcovers⟩ := hclaimed (some pool) block hclaim
  exact ⟨hclaim, (hpool pool rfl).2, hcovers, (hrefused pool.trunc _).2 ⟨rfl, by decide +kernel⟩⟩

end Claim

end HostBlocks
