import HostBlocks.Proofs.Search

/-!
# What a claim can come to

The results of a program are those at the ends of its branches, and a store that replies, whatever it
is, leads along one of them. A claim of any free block ends in one of six ways. When it ends well, the
block is one that a searched pool is cut into, and only a pool that was requested can be refused for not
being cut.
-/
namespace HostBlocks

namespace Program

variable {α β : Type} {P : α → Prop} {Q : β → Prop} {p : Program α}

/-- Whatever is replied to its calls, the result of the program has the property. -/
def Ends (P : α → Prop) : Program α → Prop
  | done a => P a
  | call _ next => ∀ reply, (next reply).Ends P

theorem Ends.run (h : p.Ends P) (s : Store) : P (p.run s).1 := by
  induction p generalizing s with
  | done a => exact h
  | call r next ih => exact ih _ (h _) _

/-- What replies may have states of its own and change them at every call. -/
theorem Ends.runWith {σ : Type} (h : p.Ends P) (reply : (r : Request) → StateM σ r.Reply) (now : σ) :
    P ((p.runWith reply).run now).1 := by
  induction p generalizing now with
  | done a => exact h
  | call r next ih => exact ih _ (h _) _

theorem Ends.map {f : α → β} (h : p.Ends fun a => Q (f a)) : (p.map f).Ends Q := by
  induction p with
  | done a => exact h
  | call r next ih => exact fun reply => ih reply (h reply)

end Program

namespace Claim

variable {settings : Settings} {catalog : Catalog} {family : Family} {requested : Option Network}
variable {host : String} {policy : Policy}

/-- A claim of one block succeeds, loses the block to another, or meets an error of the store. -/
theorem ends_claimBlock {P : Outcome Unit → Prop} (cidr : Network) (hclaimed : P (.ok ()))
    (hlost : ∀ block, P (.error (.claimedByOther block))) (hfailed : ∀ e, P (.error (.store e))) :
    (claimBlock cidr host policy).Ends P := by
  intro _ created
  cases created with
  | ok stored => exact hclaimed
  | error e =>
    dsimp only
    split
    · intro read
      cases read with
      | error e => exact hfailed e
      | ok found =>
        dsimp only
        split
        · exact hclaimed
        · intro deleted
          cases deleted with
          | ok _ => exact hlost _
          | error e =>
            dsimp only
            split
            · exact hlost _
            · exact hfailed e
    · exact hfailed e

/-- A search claims one of its candidates, or finds a record at each of them and goes on. -/
theorem ends_probe {P : Outcome Network → Prop} {otherwise : Program (Outcome Network)}
    {candidates : List Network} (hotherwise : otherwise.Ends P)
    (hclaimed : ∀ c ∈ candidates, P (.ok c)) (hlost : ∀ block, P (.error (.claimedByOther block)))
    (hfailed : ∀ e, P (.error (.store e))) :
    (probe host policy otherwise candidates).Ends P := by
  induction candidates with
  | nil => exact hotherwise
  | cons cidr rest ih =>
    obtain ⟨hcidr, hrest⟩ := List.forall_mem_cons.1 hclaimed
    intro read
    cases read with
    | ok stored => exact ih hrest
    | error e =>
      dsimp only
      split
      · exact (ends_claimBlock cidr hcidr hlost hfailed).map
      · exact hfailed e

inductive Answers (settings : Settings) (catalog : Catalog) (family : Family)
    (requested : Option Network) : Outcome Network → Prop
  | unresolved {e : AllocationError} (hpools : pools catalog family requested = .error e) :
      Answers settings catalog family requested (.error e)
  | uncut {pool : Network} {e : SizeError} (hrequested : requested = some pool)
      (hpools : pools catalog family requested = .ok [pool])
      (hcut : Layout.of pool (settings.lengths.of pool.family) = .error e) :
      Answers settings catalog family requested (.error (.blockSize e))
  | claimed {resolved : List Network} {pool cidr : Network}
      (hpools : pools catalog family requested = .ok resolved) (hpool : pool ∈ resolved)
      (hblock : IsBlockOf settings pool cidr) : Answers settings catalog family requested (.ok cidr)
  | exhausted {resolved : List Network} (hpools : pools catalog family requested = .ok resolved) :
      Answers settings catalog family requested (.error (.noFreeBlocks family))
  | lost (block : Block) : Answers settings catalog family requested (.error (.claimedByOther block))
  | failed (e : StoreError) : Answers settings catalog family requested (.error (.store e))

theorem ends_claimFree (words : Nat → Words) :
    (claimFree settings catalog words host family requested policy).Ends
      (Answers settings catalog family requested) := by
  cases hpools : pools catalog family requested with
  | error e =>
    simp only [claimFree, hpools]
    exact .unresolved hpools
  | ok resolved =>
    by_cases hcut : ∀ pool ∈ requested, ∃ l, Layout.of pool (settings.lengths.of pool.family) = .ok l
    · rw [claimFree_eq_probe settings host family policy words hpools hcut]
      refine ends_probe (.exhausted hpools) (fun cidr hcidr => ?_) .lost .failed
      obtain ⟨pool, hpool, hblock⟩ := (mem_candidates_iff settings words resolved cidr).1 hcidr
      exact .claimed hpools hpool hblock
    · obtain ⟨pool, e, rfl, hl⟩ := exists_uncut settings hcut
      rw [claimFree_of_uncut settings host family policy words hpools hl]
      obtain rfl := pools_requested family hpools
      exact .uncut rfl hpools hl

/-- What a claim cannot cut is the pool that was requested, an enabled one of the catalog. -/
theorem Answers.exists_uncut {e : SizeError}
    (h : Answers settings catalog family requested (.error (.blockSize e))) :
    ∃ configured, catalog = .ok configured ∧
      ∃ p ∈ configured, Layout.of p.cidr (settings.lengths.of p.family) = .error e := by
  cases h with
  | unresolved hpools =>
    exfalso
    rcases pools_error_cases family hpools with ⟨_, -, he⟩ | ⟨_, _, -, -, -, he⟩ | ⟨_, -, -, he⟩ |
      ⟨-, he⟩
    all_goals cases he
  | uncut hrequested hpools hcut =>
    obtain ⟨configured, hcatalog, p, hp, -, rfl⟩ :=
      eligible_of_mem_pools family hpools List.mem_cons_self
    exact ⟨configured, hcatalog, p, hp, hcut⟩

theorem answers_of_run {words : Nat → Words} {s : Store} {outcome : Outcome Network}
    (h : ((claimFree settings catalog words host family requested policy).run s).1 = outcome) :
    Answers settings catalog family requested outcome := by
  rw [← h]
  exact (ends_claimFree words).run s

end Claim

end HostBlocks
