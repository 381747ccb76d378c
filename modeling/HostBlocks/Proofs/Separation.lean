import HostBlocks.Proofs.FirstFree
import HostBlocks.Proofs.Names.Paths

/-!
# Claims of one family

Both families share a store and a catalog. A claim of a free block searches the enabled pools of its own
family, and of the blocks that these are cut into it asks only whether there is a record. The path of a
block tells its family. So the pools and records of the other family, and the pools that are disabled, make
no difference to a claim, and a claim makes none to them.
-/
namespace HostBlocks

namespace Store

def Occupied (s : Store) (family : Family) (p : String) : Prop :=
  ∃ stored, s.blocks[p]? = some stored ∧ stored.value.cidr.family = family

/-- The stored blocks of the family have the same paths in both stores. -/
def OccupiedAlike (family : Family) (s t : Store) : Prop :=
  ∀ p, s.Occupied family p ↔ t.Occupied family p

/-- The second store is the first with new records of the family. -/
structure Gains (family : Family) (s t : Store) : Prop where
  blocks : ∀ p : String, t.blocks[p]? = s.blocks[p]? ∨ s.blocks[p]? = none ∧
    ∃ new, t.blocks[p]? = some new ∧ new.value.cidr.family = family
  affinities : ∀ p : String, t.affinities[p]? = s.affinities[p]? ∨ s.affinities[p]? = none ∧
    ∃ new, t.affinities[p]? = some new ∧ new.value.cidr.family = family

instance (s : Store) (family : Family) (p : String) : Decidable (s.Occupied family p) :=
  inferInstanceAs (Decidable (∃ stored ∈ s.blocks[p]?, stored.value.cidr.family = family))

theorem forall_rows_iff (s t : Store) (family : Family) :
    (∀ row ∈ s.blocks.toList, row.2.value.cidr.family = family → t.Occupied family row.1) ↔
      ∀ p, s.Occupied family p → t.Occupied family p := by
  constructor
  · rintro h p ⟨stored, hstored, hfamily⟩
    exact h (p, stored) (Std.ExtTreeMap.mem_toList_iff_getElem?_eq_some.2 hstored) hfamily
  · intro h row hrow hfamily
    exact h row.1 ⟨row.2, Std.ExtTreeMap.mem_toList_iff_getElem?_eq_some.1 hrow, hfamily⟩

instance (family : Family) (s t : Store) : Decidable (OccupiedAlike family s t) :=
  decidable_of_iff
    ((∀ row ∈ s.blocks.toList, row.2.value.cidr.family = family → t.Occupied family row.1) ∧
      ∀ row ∈ t.blocks.toList, row.2.value.cidr.family = family → s.Occupied family row.1)
    (by rw [forall_rows_iff, forall_rows_iff, ← forall_and]; simp only [← iff_def, OccupiedAlike])

variable {s t : Store} {family : Family} {cidr : Network}

/-- Whether a block is free depends only on the blocks of its family. -/
theorem Filed.isFree_iff (h : s.Filed) :
    s.isFree cidr ↔ ¬s.Occupied cidr.family (Block.pathOf cidr) := by
  rw [isFree, Option.isNone_iff_eq_none]
  constructor
  · rintro hs ⟨stored, hstored, -⟩
    cases hs.symm.trans hstored
  · intro hnot
    rw [Option.eq_none_iff_forall_ne_some]
    intro stored hstored
    have hpath : Block.pathOf stored.value.cidr = Block.pathOf cidr := h.blocks hstored
    exact hnot ⟨stored, hstored, (Block.pathOf_eq_iff.1 hpath).1⟩

theorem OccupiedAlike.isFree_eq (h : OccupiedAlike cidr.family s t) (hs : s.Filed) (ht : t.Filed) :
    s.isFree cidr = t.isFree cidr := by
  rw [Bool.eq_iff_iff, hs.isFree_iff, ht.isFree_iff, h]

theorem gains_refl : Gains family s s := ⟨fun _ => Or.inl rfl, fun _ => Or.inl rfl⟩

theorem gains_claiming {host : String} {policy : Policy} (hfree : s.isFree cidr) :
    Gains cidr.family s (s.claiming cidr host policy) := by
  rw [isFree, Option.isNone_iff_eq_none] at hfree
  constructor
  · intro p
    by_cases hp : Block.pathOf cidr = p
    · subst hp
      exact Or.inr ⟨hfree, _, Std.ExtTreeMap.getElem?_insert_self, rfl⟩
    · exact Or.inl (getElem?_insert_of_ne (Ne.symm hp))
  · intro p
    simp only [claiming, Std.ExtTreeMap.getElem?_insertIfNew]
    split
    · next hp =>
      obtain ⟨hp, hnew⟩ := hp
      rw [Std.LawfulEqCmp.compare_eq_iff_eq] at hp
      subst hp
      exact Or.inr ⟨by simpa using hnew, _, rfl, rfl⟩
    · exact Or.inl rfl

end Store

namespace Claim

variable {settings : Settings} {catalog : Catalog} {family : Family} {requested : Option Network}
variable {host : String} {policy : Policy}

theorem family_of_mem_candidates {resolved : List Network} {words : Nat → Words} {cidr : Network}
    (hpools : pools catalog family requested = .ok resolved)
    (hcidr : cidr ∈ candidates settings words resolved) : cidr.family = family := by
  obtain ⟨pool, hpool, hblock⟩ := (mem_candidates_iff settings words resolved cidr).1 hcidr
  exact family_of_isBlockOf hpools hpool hblock

/-- A claim of any free block that runs alone adds records of its family, and does nothing else. -/
theorem gains_run_claimFree (words : Nat → Words) (s : Store) :
    Store.Gains family s
      ((claimFree settings catalog words host family requested policy).run s).2 := by
  rcases run_claimFree_cases settings catalog words host family requested policy s with
    ⟨e, -, -, hrun⟩ | ⟨cidr, hrun⟩
  · rw [hrun]
    exact Store.gains_refl
  · have hclaimed := congrArg Prod.fst hrun
    obtain ⟨resolved, hpools, -, hfind⟩ := find?_of_claimed hclaimed
    have hfamily := family_of_mem_candidates hpools (List.mem_of_find?_eq_some hfind)
    rw [hrun, ← hfamily]
    exact Store.gains_claiming (List.find?_some hfind)

/-- Claims in ascending order on two stores, with two catalogs, have the same result if the enabled pools
of the family are the same and blocks of the family are stored at the same paths. Each adds records of the
family to its store, and does nothing else. -/
theorem claims_separate_families (settings : Settings) (hselection : settings.selection = .sequential)
    (family : Family) (host : String) (policy : Policy) (configured₁ configured₂ : List Pool)
    (hconfigured : configured₁.filter (·.isEligible family) = configured₂.filter (·.isEligible family))
    (s₁ s₂ : Store) (hfiled₁ : s₁.Filed) (hfiled₂ : s₂.Filed)
    (halike : Store.OccupiedAlike family s₁ s₂) (words₁ words₂ : Nat → Words) :
    let ran₁ := (claimFree settings (.ok configured₁) words₁ host family none policy).run s₁
    let ran₂ := (claimFree settings (.ok configured₂) words₂ host family none policy).run s₂
    ran₁.1 = ran₂.1 ∧ Store.Gains family s₁ ran₁.2 ∧ Store.Gains family s₂ ran₂.2 := by
  intro ran₁ ran₂
  refine ⟨?_, gains_run_claimFree words₁ s₁, gains_run_claimFree words₂ s₂⟩
  have hresolve : pools (.ok configured₁) family none = pools (.ok configured₂) family none := by
    simp only [pools, hconfigured]
  cases hpools : pools (.ok configured₁) family none with
  | error e => simp only [ran₁, ran₂, claimFree, ← hresolve, hpools, Program.run_done]
  | ok resolved =>
    have hfind : (candidates settings words₁ resolved).find? s₁.isFree =
        (candidates settings words₂ resolved).find? s₂.isFree := by
      rw [candidates_sequential hselection words₂, ← candidates_sequential hselection words₁,
        ← List.head?_filter, ← List.head?_filter]
      congr 1
      refine List.filter_congr fun cidr hcidr => ?_
      obtain rfl := family_of_mem_candidates hpools hcidr
      exact halike.isFree_eq hfiled₁ hfiled₂
    have hpools₂ : pools (.ok configured₂) family none = .ok resolved := hresolve.symm.trans hpools
    simp only [ran₁, ran₂]
    rw [run_claimFree_find s₁ host policy words₁ hpools (by simp),
      run_claimFree_find s₂ host policy words₂ hpools₂ (by simp), hfind]
    cases (candidates settings words₂ resolved).find? s₂.isFree <;> rfl

/-- In the first store one host has the first block of the pool, in the second another host has it and
leases an address, and blocks and affinity records of the other family stand beside it. A disabled pool and
pools of the other family surround the pool in the second catalog. -/
theorem claims_separate_families_of_leased :
    let network (a : Nat) (h : a < 2 ^ 32) (length : Nat) (hl : length ≤ 32) : Network :=
      ⟨⟨.v4, a, h⟩, length, hl⟩
    let pool := network 0x0A000000 (by decide) 24 (by decide)
    let first := network 0x0A000000 (by decide) 26 (by decide)
    let second := network 0x0A000040 (by decide) 26 (by decide)
    let wide : Network := ⟨⟨.v6, 0xfd00 * 2 ^ 112, by decide⟩, 48, by decide⟩
    let far : Network := ⟨⟨.v6, 0xfd00 * 2 ^ 112, by decide⟩, 122, by decide⟩
    let leased : Block := ⟨first, some "b", true, {⟨.v4, 0x0A000001, by decide⟩}⟩
    let configured₁ : List Pool := [⟨pool, false⟩]
    let configured₂ : List Pool :=
      [⟨wide, false⟩, ⟨network 0 (by decide) 8 (by decide), true⟩, ⟨pool, false⟩, ⟨wide, true⟩]
    let s₁ := Store.empty.after [.createBlock (.claimed first "a" false)]
    let s₂ := Store.empty.after [.createAffinity ⟨"c", far⟩, .createBlock (.claimed far "c" true),
      .createAffinity ⟨"b", first⟩, .createBlock (.claimed first "b" true), .updateBlock ⟨leased, .initial⟩]
    let claim (configured : List Pool) := claimFree .standard (.ok configured) (fun _ => .ofSeed 0) "c"
      .v4 none ⟨false⟩
    (configured₁.filter (·.isEligible .v4) = configured₂.filter (·.isEligible .v4) ∧
      s₁.Filed ∧ s₂.Filed ∧ Store.OccupiedAlike .v4 s₁ s₂) ∧
    ((claim configured₁).run s₁).1 = .ok second ∧
    ((claim configured₁).run s₁).1 = ((claim configured₂).run s₂).1 ∧
    Store.Gains .v4 s₁ ((claim configured₁).run s₁).2 ∧
    Store.Gains .v4 s₂ ((claim configured₂).run s₂).2 := by
  intro network pool first second wide far leased configured₁ configured₂ s₁ s₂ claim
  have hconfigured : configured₁.filter (·.isEligible .v4) = configured₂.filter (·.isEligible .v4) := by
    decide +kernel
  have hfiled₁ : s₁.Filed := Store.filed_empty.after _
  have hfiled₂ : s₂.Filed := Store.filed_empty.after _
  have halike : Store.OccupiedAlike .v4 s₁ s₂ := by decide +kernel
  exact ⟨⟨hconfigured, hfiled₁, hfiled₂, halike⟩, by decide +kernel,
    claims_separate_families .standard rfl .v4 "c" ⟨false⟩ configured₁ configured₂ hconfigured s₁ s₂
      hfiled₁ hfiled₂ halike _ _⟩

end Claim

end HostBlocks
