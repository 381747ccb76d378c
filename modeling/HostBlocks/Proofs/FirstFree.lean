import HostBlocks.Proofs.Drain

/-!
# The first free candidate

A claim of any free block that runs alone takes the first candidate that has no record. In ascending
order that is the first free block of the pools one after the other, and at random it is a free block of
the first pool that has one. Nothing else changes, and where the claim fails nothing changes at all.
-/
namespace HostBlocks

open scoped List

def Store.isFree (s : Store) (cidr : Network) : Bool := s.blocks[Block.pathOf cidr]?.isNone

def Store.claiming (s : Store) (cidr : Network) (host : String) (policy : Policy) : Store :=
  ⟨s.blocks.insert (Block.pathOf cidr) ⟨⟨cidr, some host, policy.strictAffinity, ∅⟩, .initial⟩,
    s.affinities.insertIfNew (Affinity.path ⟨host, cidr⟩) ⟨⟨host, cidr⟩, .initial⟩⟩

namespace Claim

variable {settings : Settings} {s : Store} {host : String} {policy : Policy}

theorem run_found_of_isFree {cidr : Network} (hclear : cidr.trunc = cidr) (h : s.isFree cidr) :
    (found cidr host policy).run s = (.ok cidr, s.claiming cidr host policy) := by
  have habsent : s.blocks[Block.pathOf cidr]? = none := Option.isNone_iff_eq_none.1 h
  rw [found, Program.run_map, run_claimBlock_of_absent hclear habsent, Store.claiming,
    Store.affinities_createAffinity, Affinity.of, Block.claimed, Block.of, hclear]
  rfl

theorem run_probe_find (otherwise : Program (Outcome Network)) (candidates : List Network) :
    (probe host policy otherwise candidates).run s =
      match candidates.find? s.isFree with
      | some cidr => (found cidr host policy).run s
      | none => otherwise.run s := by
  rcases @run_probe s host policy otherwise candidates with ⟨htaken, hrun⟩ |
    ⟨front, cidr, back, rfl, hfront, hfree, hrun⟩
  · have hnone : candidates.find? s.isFree = none := by
      apply List.find?_eq_none.2
      intro c hc
      obtain ⟨stored, h⟩ := htaken c hc
      simp [Store.isFree, h]
    rw [hnone, hrun]
  · have hfirst : (front ++ cidr :: back).find? s.isFree = some cidr := by
      refine List.find?_eq_some_iff_append.2 ⟨by simp [Store.isFree, hfree], front, back, rfl, ?_⟩
      intro c hc
      obtain ⟨stored, h⟩ := hfront c hc
      simp [Store.isFree, h]
    rw [hfirst, hrun]

def order (settings : Settings) (words : Words) (pool : Network) : List Network :=
  match Candidates.of pool settings.lengths settings.selection words with
  | .ok c => c.toList
  | .error _ => []

theorem candidates_cons (words : Nat → Words) (pool : Network) (rest : List Network) :
    candidates settings words (pool :: rest) =
      order settings (words 0) pool ++ candidates settings (fun i => words (i + 1)) rest := rfl

theorem order_perm (settings : Settings) (words : Words) (pool : Network) :
    order settings words pool ~ blocksOf settings pool := by
  cases h : Candidates.of pool settings.lengths settings.selection words with
  | ok c =>
    obtain ⟨l, hl, hperm⟩ := Candidates.toList_of h
    simp only [order, blocksOf, h, hl]
    exact hperm
  | error e =>
    simp only [order, blocksOf, h, Candidates.of_eq_error_iff.1 h]
    exact .nil

theorem order_sequential (h : settings.selection = .sequential) (words : Words) (pool : Network) :
    order settings words pool = blocksOf settings pool := by
  rw [order, blocksOf, h]
  cases hl : Layout.of pool (settings.lengths.of pool.family) with
  | ok l =>
    simp only [Candidates.of, Ascending.of, hl, Except.map]
    exact Ascending.toList_start l
  | error e => simp only [Candidates.of, Ascending.of, hl, Except.map]

theorem candidates_sequential (h : settings.selection = .sequential) (words : Nat → Words)
    (pools : List Network) :
    candidates settings words pools = pools.flatMap (blocksOf settings) := by
  induction pools generalizing words with
  | nil => rfl
  | cons pool rest ih => rw [candidates_cons, order_sequential h, ih, List.flatMap_cons]

def hasFree (settings : Settings) (s : Store) (pool : Network) : Bool :=
  (blocksOf settings pool).any s.isFree

theorem hasFree_iff {pool : Network} :
    hasFree settings s pool ↔ ∃ cidr ∈ blocksOf settings pool, s.isFree cidr :=
  List.any_eq_true

/-- In any order, the first free candidate is a free block of the first pool that has one. -/
theorem find?_candidates (settings : Settings) (s : Store) (words : Nat → Words)
    (pools : List Network) :
    match pools.find? (hasFree settings s) with
    | some pool => ∃ cidr ∈ blocksOf settings pool, s.isFree cidr ∧
        (candidates settings words pools).find? s.isFree = some cidr
    | none => (candidates settings words pools).find? s.isFree = none := by
  induction pools generalizing words with
  | nil => rfl
  | cons pool rest ih =>
    have hperm := order_perm settings (words 0) pool
    rw [candidates_cons, List.find?_append]
    cases hfind : (order settings (words 0) pool).find? s.isFree with
    | some cidr =>
      have hmem := hperm.mem_iff.1 (List.mem_of_find?_eq_some hfind)
      have hfree := List.find?_some hfind
      rw [List.find?_cons_of_pos (hasFree_iff.2 ⟨cidr, hmem, hfree⟩)]
      exact ⟨cidr, hmem, hfree, rfl⟩
    | none =>
      have htaken : ¬hasFree settings s pool := by
        rw [hasFree_iff]
        rintro ⟨cidr, hmem, hfree⟩
        exact List.find?_eq_none.1 hfind cidr (hperm.mem_iff.2 hmem) hfree
      rw [List.find?_cons_of_neg htaken]
      exact ih fun i => words (i + 1)

/-- A claim whose pools are resolved and can be searched takes the first free candidate. -/
theorem run_claimFree_find {catalog : Catalog} {family : Family} {requested : Option Network}
    {pools : List Network} (s : Store) (host : String) (policy : Policy) (words : Nat → Words)
    (hpools : Claim.pools catalog family requested = .ok pools)
    (hcut : ∀ pool ∈ requested, ∃ l, Layout.of pool (settings.lengths.of pool.family) = .ok l) :
    (claimFree settings catalog words host family requested policy).run s =
      match (candidates settings words pools).find? s.isFree with
      | some cidr => (.ok cidr, s.claiming cidr host policy)
      | none => (.error (.noFreeBlocks family), s) := by
  rw [claimFree_eq_probe settings host family policy words hpools hcut, run_probe_find]
  cases hfind : (candidates settings words pools).find? s.isFree with
  | none => rfl
  | some cidr =>
    have hclear := trunc_of_mem_candidates (List.mem_of_find?_eq_some hfind)
    exact run_found_of_isFree hclear (List.find?_some hfind)

theorem run_claimFree_of_uncut {catalog : Catalog} {family : Family} {pool : Network}
    {pools : List Network} {e : SizeError} (words : Nat → Words)
    (hpools : Claim.pools catalog family (some pool) = .ok pools)
    (hcut : Layout.of pool (settings.lengths.of pool.family) = .error e) :
    (claimFree settings catalog words host family (some pool) policy).run s =
      (.error (.blockSize e), s) := by
  rw [claimFree_of_uncut settings host family policy words hpools hcut, Program.run_done]

/-- A claim that takes a block has resolved its pools, could cut the pool it was asked for, and takes the
first free candidate. -/
theorem find?_of_claimed {catalog : Catalog} {family : Family} {requested : Option Network}
    {words : Nat → Words} {cidr : Network}
    (h : ((claimFree settings catalog words host family requested policy).run s).1 = .ok cidr) :
    ∃ pools, Claim.pools catalog family requested = .ok pools ∧
      (∀ pool ∈ requested, ∃ l, Layout.of pool (settings.lengths.of pool.family) = .ok l) ∧
      (candidates settings words pools).find? s.isFree = some cidr := by
  rcases claimFree_cases settings host family policy catalog words requested with
    ⟨e, -, hdone⟩ | ⟨pools, hpools, hcut, -⟩
  · rw [hdone] at h
    cases h
  · refine ⟨pools, hpools, hcut, ?_⟩
    rw [run_claimFree_find s host policy words hpools hcut] at h
    cases hfind : (candidates settings words pools).find? s.isFree with
    | none =>
      rw [hfind] at h
      cases h
    | some first =>
      rw [hfind] at h
      cases h
      rfl

/-- A claim that runs alone neither loses its block nor meets an error of the store. -/
theorem run_claimFree_cases (settings : Settings) (catalog : Catalog) (words : Nat → Words)
    (host : String) (family : Family) (requested : Option Network) (policy : Policy) (s : Store) :
    (∃ e, (∀ block, e ≠ .claimedByOther block) ∧ (∀ cause, e ≠ .store cause) ∧
      (claimFree settings catalog words host family requested policy).run s = (.error e, s)) ∨
    ∃ cidr, (claimFree settings catalog words host family requested policy).run s =
      (.ok cidr, s.claiming cidr host policy) := by
  cases hpools : Claim.pools catalog family requested with
  | error e =>
    obtain ⟨hlost, hfailed⟩ := pools_error_ne family hpools
    exact Or.inl ⟨e, hlost, hfailed, by simp only [claimFree, hpools, Program.run_done]⟩
  | ok pools =>
    by_cases hcut : ∀ pool ∈ requested, ∃ l, Layout.of pool (settings.lengths.of pool.family) = .ok l
    · rw [run_claimFree_find s host policy words hpools hcut]
      cases (candidates settings words pools).find? s.isFree with
      | none => exact Or.inl ⟨.noFreeBlocks family, by simp, by simp, rfl⟩
      | some cidr => exact Or.inr ⟨cidr, rfl⟩
    · obtain ⟨pool, e, rfl, hl⟩ := exists_uncut settings hcut
      exact Or.inl ⟨.blockSize e, by simp, by simp, run_claimFree_of_uncut words hpools hl⟩

/-- A claim of any free block that runs alone creates a record of the first free block of the pools, which
are the enabled ones of its family in catalog order or the requested one, and in random order that of a
free block of the first pool that has one. It adds an affinity record unless there is one. If it fails,
the store is as before, and it is not for the store or for another host that it fails. -/
theorem claims_first_free (settings : Settings) (catalog : Catalog) (words : Nat → Words)
    (host : String) (family : Family) (requested : Option Network) (policy : Policy) (s : Store) :
    let ran := (claimFree settings catalog words host family requested policy).run s
    let taking (cidr : Network) : Outcome Network × Store := (.ok cidr,
      ⟨s.blocks.insert (Block.pathOf cidr) ⟨⟨cidr, some host, policy.strictAffinity, ∅⟩, .initial⟩,
        s.affinities.insertIfNew (Affinity.path ⟨host, cidr⟩) ⟨⟨host, cidr⟩, .initial⟩⟩)
    let failing (e : AllocationError) : Outcome Network × Store := (.error e, s)
    (∀ e, Claim.pools catalog family requested = .error e → ran = failing e) ∧
    (∀ pools, Claim.pools catalog family requested = .ok pools →
      (∀ pool ∈ requested, pools = [pool]) ∧
      (requested = none → ∃ configured, catalog = .ok configured ∧
        pools = (configured.filter (·.isEligible family)).map (·.cidr)) ∧
      (∀ pool ∈ requested, ∀ e, Layout.of pool (settings.lengths.of pool.family) = .error e →
        ran = failing (.blockSize e)) ∧
      ((∀ pool ∈ requested, ∃ l, Layout.of pool (settings.lengths.of pool.family) = .ok l) →
        match settings.selection with
        | .sequential =>
          ran = ((pools.flatMap (blocksOf settings)).find? s.isFree).elim
            (failing (.noFreeBlocks family)) taking
        | .random =>
          match pools.find? (hasFree settings s) with
          | some pool => ∃ cidr ∈ blocksOf settings pool, s.isFree cidr ∧ ran = taking cidr
          | none => ran = failing (.noFreeBlocks family))) ∧
    ∀ e, ran.1 = .error e → ran.2 = s ∧ (∀ block, e ≠ .claimedByOther block) ∧
      ∀ cause, e ≠ .store cause := by
  intro ran taking failing
  refine ⟨fun e he => ?_, fun pools hpools => ⟨?_, ?_, ?_, fun hcut => ?_⟩, fun e he => ?_⟩
  · simp only [ran, claimFree, he, Program.run_done, failing]
  · rintro pool rfl
    exact pools_requested family hpools
  · rintro rfl
    cases catalog with
    | error cause => cases hpools
    | ok configured => exact ⟨configured, rfl, pools_of_configured family hpools⟩
  · rintro pool rfl e hl
    exact run_claimFree_of_uncut words hpools hl
  · have hran := run_claimFree_find s host policy words hpools hcut
    cases hselection : settings.selection with
    | sequential =>
      rw [candidates_sequential hselection] at hran
      refine hran.trans ?_
      cases (pools.flatMap (blocksOf settings)).find? s.isFree <;> rfl
    | random =>
      have hfirst := find?_candidates settings s words pools
      cases hpool : pools.find? (hasFree settings s) with
      | none =>
        rw [hpool] at hfirst
        exact hran.trans (by rw [hfirst])
      | some pool =>
        rw [hpool] at hfirst
        obtain ⟨cidr, hmem, hfree, hfind⟩ := hfirst
        exact ⟨cidr, hmem, hfree, hran.trans (by rw [hfind]; rfl)⟩
  · rcases run_claimFree_cases settings catalog words host family requested policy s with
      ⟨e', hlost, hfailed, hran⟩ | ⟨cidr, hran⟩
    · have hran' : ran = (.error e', s) := hran
      rw [hran'] at he ⊢
      cases he
      exact ⟨rfl, hlost, hfailed⟩
    · have hran' : ran.1 = .ok cidr := congrArg Prod.fst hran
      cases he.symm.trans hran'

/-- The blocks of the first pool are taken, the second pool is too small, the third is disabled, and the
fourth has host bits and a record at its first block: the claim takes its second. -/
theorem claims_first_free_of_skipped :
    let network (a : Nat) (h : a < 2 ^ 32) (length : Nat) (hl : length ≤ 32) : Network :=
      ⟨⟨.v4, a, h⟩, length, hl⟩
    let block (a : Nat) (h : a < 2 ^ 32) : Network := network a h 26 (by decide)
    let full := network 0x0A000000 (by decide) 25 (by decide)
    let small := network 0x0A010000 (by decide) 27 (by decide)
    let disabled := network 0x0A020000 (by decide) 24 (by decide)
    let partly := network 0x0A03004D (by decide) 25 (by decide)
    let s := ((Store.empty.claiming (block 0x0A000000 (by decide)) "a" ⟨false⟩).claiming
      (block 0x0A000040 (by decide)) "b" ⟨true⟩).claiming (block 0x0A030000 (by decide)) "a" ⟨true⟩
    let catalog : Catalog := .ok [⟨full, false⟩, ⟨small, false⟩, ⟨disabled, true⟩, ⟨partly, false⟩]
    Claim.pools catalog .v4 none = .ok [full, small, partly] ∧
      (claimFree .standard catalog (fun _ => .ofSeed 0) "c" .v4 none ⟨true⟩).run s =
        (.ok (block 0x0A030040 (by decide)),
          s.claiming (block 0x0A030040 (by decide)) "c" ⟨true⟩) := by
  intro network block full small disabled partly s catalog
  have hpools : Claim.pools catalog .v4 none = .ok [full, small, partly] := by decide +kernel
  have hfirst : ([full, small, partly].flatMap (blocksOf .standard)).find? s.isFree =
      some (block 0x0A030040 (by decide)) := by decide +kernel
  obtain ⟨-, hsearched, -⟩ :=
    claims_first_free .standard catalog (fun _ => .ofSeed 0) "c" .v4 none ⟨true⟩ s
  obtain ⟨-, -, -, hran⟩ := hsearched _ hpools
  have hclaimed := hran nofun
  dsimp only [Settings.standard] at hclaimed hfirst
  rw [hfirst] at hclaimed
  exact ⟨hpools, hclaimed⟩

end Claim

end HostBlocks
