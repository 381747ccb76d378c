import HostBlocks.Allocation.Claim
import HostBlocks.Proofs.Enumeration.Permutation

/-!
# A search as a list of candidates

The search of a claim through pools that can all be cut is a walk along one list: the candidates of
the pools in turn. Whatever the selection, the list has exactly the blocks of the searched pools, so
a claim that passes over the whole list has looked at every one of them.
-/
namespace HostBlocks.Claim

def probe (host : String) (policy : Policy) (otherwise : Program (Outcome Network)) :
    List Network → Program (Outcome Network)
  | [] => otherwise
  | cidr :: rest =>
    .call (.getBlock cidr) fun
      | .ok _ => probe host policy otherwise rest
      | .error e => if e.isNotFound then found cidr host policy else .done (.error (.store e))

theorem search_eq_probe (host : String) (policy : Policy) (otherwise : Program (Outcome Network))
    (n : Nat) (c : Candidates) :
    search host policy otherwise n c = probe host policy otherwise (c.take n) := by
  induction n generalizing c with
  | zero => rfl
  | succ n ih =>
    cases hnext : c.next with
    | none => simp only [search, Candidates.take, hnext, probe]
    | some found =>
      have hrest := ih found.2
      have htake : c.take (n + 1) = found.1 :: found.2.take n := by
        simp only [Candidates.take, hnext]
      rewrite [htake, probe, ← hrest, search, hnext]
      rfl

theorem probe_append (host : String) (policy : Policy) (otherwise : Program (Outcome Network))
    (front back : List Network) :
    probe host policy otherwise (front ++ back) =
      probe host policy (probe host policy otherwise back) front := by
  induction front with
  | nil => rfl
  | cons cidr front ih => simp only [List.cons_append, probe, ih]

def candidates (settings : Settings) : (Nat → Words) → List Network → List Network
  | _, [] => []
  | words, pool :: rest =>
    (match Candidates.of pool settings.lengths settings.selection (words 0) with
      | .ok c => c.toList
      | .error _ => []) ++ candidates settings (fun i => words (i + 1)) rest

def IsBlockOf (settings : Settings) (pool cidr : Network) : Prop :=
  ∃ l, Layout.of pool (settings.lengths.of pool.family) = .ok l ∧ cidr ∈ l.blocks

theorem IsBlockOf.trunc_eq {settings : Settings} {pool cidr : Network}
    (h : IsBlockOf settings pool cidr) : cidr.trunc = cidr := by
  obtain ⟨l, -, hmem⟩ := h
  exact l.trunc_of_mem_blocks hmem

theorem IsBlockOf.fits {settings : Settings} {pool cidr : Network} (h : IsBlockOf settings pool cidr) :
    cidr.family = pool.family ∧ cidr.length = settings.lengths.of pool.family ∧
      pool.includes cidr := by
  obtain ⟨l, hl, hmem⟩ := h
  obtain ⟨rfl, hlength⟩ := l.of_eq_ok_iff.1 hl
  obtain ⟨i, hi, rfl⟩ := (l.mem_blocks cidr).1 hmem
  exact ⟨rfl, hlength, l.includes_block hi⟩

theorem mem_toList_iff {settings : Settings} {pool cidr : Network} {words : Words} {c : Candidates}
    (h : Candidates.of pool settings.lengths settings.selection words = .ok c) :
    cidr ∈ c.toList ↔ IsBlockOf settings pool cidr := by
  obtain ⟨l, hl, hperm⟩ := Candidates.toList_of h
  constructor
  · intro hmem
    exact ⟨l, hl, hperm.mem_iff.1 hmem⟩
  · rintro ⟨l', hl', hmem⟩
    cases hl.symm.trans hl'
    exact hperm.mem_iff.2 hmem

theorem mem_candidates_iff (settings : Settings) (words : Nat → Words) (pools : List Network)
    (cidr : Network) :
    cidr ∈ candidates settings words pools ↔ ∃ pool ∈ pools, IsBlockOf settings pool cidr := by
  induction pools generalizing words with
  | nil => simp [candidates]
  | cons pool rest ih =>
    rw [candidates, List.mem_append, ih]
    simp only [List.mem_cons, exists_eq_or_imp]
    apply or_congr_left
    cases h : Candidates.of pool settings.lengths settings.selection (words 0) with
    | ok c => exact mem_toList_iff h
    | error e =>
      rw [Candidates.of_eq_error_iff] at h
      simp [IsBlockOf, h]

theorem trunc_of_mem_candidates {settings : Settings} {words : Nat → Words} {pools : List Network}
    {cidr : Network} (h : cidr ∈ candidates settings words pools) : cidr.trunc = cidr := by
  obtain ⟨pool, -, hblock⟩ := (mem_candidates_iff settings words pools cidr).1 h
  exact hblock.trunc_eq

variable (settings : Settings) (host : String) (family : Family) (policy : Policy)

/-- A search that skips the pools that cannot be cut walks along the candidates of all pools. -/
theorem searchPools_eq_probe (words : Nat → Words) (pools : List Network) :
    searchPools settings host family policy false words pools =
      probe host policy (.done (.error (.noFreeBlocks family)))
        (candidates settings words pools) := by
  induction pools generalizing words with
  | nil => rfl
  | cons pool rest ih =>
    rw [searchPools, candidates, probe_append, ih]
    cases Candidates.of pool settings.lengths settings.selection (words 0) with
    | ok c => exact search_eq_probe host policy _ _ c
    | error e => rfl

/-- A requested pool is searched alone, and not being able to cut it is an error. -/
theorem searchPools_requested (words : Nat → Words) (pool : Network) :
    searchPools settings host family policy true words [pool] =
      match Layout.of pool (settings.lengths.of pool.family) with
      | .ok _ => probe host policy (.done (.error (.noFreeBlocks family)))
          (candidates settings words [pool])
      | .error e => .done (.error (.blockSize e)) := by
  cases h : Candidates.of pool settings.lengths settings.selection (words 0) with
  | ok c =>
    obtain ⟨l, hl, -⟩ := Candidates.toList_of h
    simp only [searchPools, candidates, h, hl, List.append_nil]
    exact search_eq_probe host policy _ _ c
  | error e =>
    simp only [searchPools, h, Candidates.of_eq_error_iff.1 h, if_true]

theorem pools_requested {catalog : Catalog} {pool : Network} {resolved : List Network}
    (h : pools catalog family (some pool) = .ok resolved) : resolved = [pool] := by
  cases catalog with
  | error e => cases h
  | ok configured =>
    simp only [pools, Family.require] at h
    split at h
    · split at h
      · cases h
        rfl
      · cases h
    · cases h

/-- With no pool requested, all enabled pools of the family are searched in catalog order. -/
theorem pools_of_configured {configured : List Pool} {resolved : List Network}
    (h : pools (.ok configured) family none = .ok resolved) :
    resolved = (configured.filter (·.isEligible family)).map (·.cidr) := by
  simp only [pools] at h
  split at h
  · cases h
  · next heq =>
    cases h
    exact heq.symm

/-- A claim searches enabled pools of its family only. -/
theorem eligible_of_mem_pools {catalog : Catalog} {requested : Option Network}
    {resolved : List Network} {pool : Network} (h : pools catalog family requested = .ok resolved)
    (hpool : pool ∈ resolved) :
    ∃ configured, catalog = .ok configured ∧
      ∃ p ∈ configured, p.isEligible family ∧ p.cidr = pool := by
  cases catalog with
  | error e => cases h
  | ok configured =>
    refine ⟨configured, rfl, ?_⟩
    cases requested with
    | some asked =>
      obtain rfl := pools_requested family h
      obtain rfl := List.mem_singleton.1 hpool
      simp only [pools, Family.require] at h
      split at h
      · next hnamed =>
        split at h
        · next hfamily =>
          obtain ⟨p, hp, hname⟩ := List.any_eq_true.1 hnamed
          simp only [Pool.isNamed, Bool.and_eq_true, decide_eq_true_eq] at hname
          refine ⟨p, hp, ?_, hname.2⟩
          simp [Pool.isEligible, Pool.family, hname, hfamily]
        · cases h
      · cases h
    | none =>
      rw [pools_of_configured family h, List.mem_map] at hpool
      obtain ⟨p, hp, hcidr⟩ := hpool
      exact ⟨p, (List.mem_filter.1 hp).1, (List.mem_filter.1 hp).2, hcidr⟩

theorem family_of_isBlockOf {settings : Settings} {family : Family} {catalog : Catalog}
    {requested : Option Network} {resolved : List Network} {pool cidr : Network}
    (hpools : pools catalog family requested = .ok resolved) (hpool : pool ∈ resolved)
    (hblock : IsBlockOf settings pool cidr) : cidr.family = family := by
  obtain ⟨configured, -, p, -, heligible, rfl⟩ := eligible_of_mem_pools family hpools hpool
  exact hblock.fits.1.trans ((p.isEligible_iff family).1 heligible).2

/-- Pools are not resolved if the catalog cannot be read, if the requested pool is not one of its
enabled pools or is of the other family, or if none was requested and the catalog has none. -/
theorem pools_error_cases {catalog : Catalog} {requested : Option Network} {e : AllocationError}
    (h : pools catalog family requested = .error e) :
    (∃ cause, catalog = .error cause ∧ e = .catalog cause) ∨
      (∃ configured pool, catalog = .ok configured ∧ requested = some pool ∧
        Catalog.hasPool (.ok configured) pool = false ∧ e = .poolNotConfigured pool) ∨
      (∃ pool, requested = some pool ∧ pool.family ≠ family ∧ e = .poolFamilyMismatch pool family) ∨
      requested = none ∧ e = .noConfiguredPools family := by
  cases catalog with
  | error cause =>
    cases h
    exact Or.inl ⟨cause, rfl, rfl⟩
  | ok configured =>
    cases requested with
    | some pool =>
      simp only [pools, Family.require] at h
      split at h
      · split at h
        · cases h
        · next hfamily =>
          cases h
          exact Or.inr (Or.inr (Or.inl ⟨pool, rfl, hfamily, rfl⟩))
      · next hnamed =>
        cases h
        refine Or.inr (Or.inl ⟨configured, pool, rfl, rfl, ?_, rfl⟩)
        simpa [Catalog.hasPool] using hnamed
    | none =>
      simp only [pools] at h
      split at h
      · cases h
        exact Or.inr (Or.inr (Or.inr ⟨rfl, rfl⟩))
      · cases h

theorem pools_error_ne {catalog : Catalog} {requested : Option Network} {e : AllocationError}
    (h : pools catalog family requested = .error e) :
    (∀ block, e ≠ .claimedByOther block) ∧ ∀ cause, e ≠ .store cause := by
  rcases pools_error_cases family h with ⟨_, -, rfl⟩ | ⟨_, _, -, -, -, rfl⟩ | ⟨_, -, -, rfl⟩ |
    ⟨-, rfl⟩ <;> exact ⟨nofun, nofun⟩

/-- A claim whose pools are resolved, and that can cut the pool it was asked for, walks along the
candidates of these pools. -/
theorem claimFree_eq_probe {catalog : Catalog} {requested : Option Network} {resolved : List Network}
    (words : Nat → Words) (hpools : pools catalog family requested = .ok resolved)
    (hcut : ∀ pool ∈ requested, ∃ l, Layout.of pool (settings.lengths.of pool.family) = .ok l) :
    claimFree settings catalog words host family requested policy =
      probe host policy (.done (.error (.noFreeBlocks family)))
        (candidates settings words resolved) := by
  simp only [claimFree, hpools]
  cases requested with
  | none => exact searchPools_eq_probe settings host family policy words resolved
  | some pool =>
    obtain rfl := pools_requested family hpools
    obtain ⟨l, hl⟩ := hcut pool rfl
    have hsearch := searchPools_requested settings host family policy words pool
    rw [hl] at hsearch
    exact hsearch

theorem claimFree_of_uncut {catalog : Catalog} {pool : Network} {resolved : List Network}
    {e : SizeError} (words : Nat → Words)
    (hpools : pools catalog family (some pool) = .ok resolved)
    (hcut : Layout.of pool (settings.lengths.of pool.family) = .error e) :
    claimFree settings catalog words host family (some pool) policy =
      .done (.error (.blockSize e)) := by
  have hsearch := searchPools_requested settings host family policy words pool
  rw [hcut] at hsearch
  obtain rfl := pools_requested family hpools
  simp only [claimFree, hpools, Option.isSome_some, hsearch]

theorem exists_uncut {requested : Option Network}
    (h : ¬∀ pool ∈ requested, ∃ l, Layout.of pool (settings.lengths.of pool.family) = .ok l) :
    ∃ pool e, requested = some pool ∧
      Layout.of pool (settings.lengths.of pool.family) = .error e := by
  simp only [not_forall] at h
  obtain ⟨pool, hrequested, hcut⟩ := h
  cases hl : Layout.of pool (settings.lengths.of pool.family) with
  | ok l => exact absurd ⟨l, hl⟩ hcut
  | error e => exact ⟨pool, e, hrequested, hl⟩

/-- A claim of any free block fails before its first call, not because all blocks are taken, or walks
along the candidates of the pools it may search. -/
theorem claimFree_cases (catalog : Catalog) (words : Nat → Words) (requested : Option Network) :
    (∃ e, (∀ f, e ≠ .noFreeBlocks f) ∧
      claimFree settings catalog words host family requested policy = .done (.error e)) ∨
    ∃ resolved, pools catalog family requested = .ok resolved ∧
      (∀ pool ∈ requested, ∃ l, Layout.of pool (settings.lengths.of pool.family) = .ok l) ∧
      claimFree settings catalog words host family requested policy =
        probe host policy (.done (.error (.noFreeBlocks family)))
          (candidates settings words resolved) := by
  cases hp : pools catalog family requested with
  | error e =>
    refine Or.inl ⟨e, fun f he => ?_, by simp only [claimFree, hp]⟩
    rcases pools_error_cases family hp with ⟨_, -, rfl⟩ | ⟨_, _, -, -, -, rfl⟩ | ⟨_, -, -, rfl⟩ |
      ⟨-, rfl⟩ <;> cases he
  | ok resolved =>
    by_cases hcut : ∀ pool ∈ requested, ∃ l, Layout.of pool (settings.lengths.of pool.family) = .ok l
    · exact Or.inr ⟨resolved, rfl, hcut,
        claimFree_eq_probe settings host family policy words hp hcut⟩
    · obtain ⟨pool, e, rfl, hl⟩ := exists_uncut settings hcut
      exact Or.inl ⟨.blockSize e, nofun, claimFree_of_uncut settings host family policy words hp hl⟩

end HostBlocks.Claim
