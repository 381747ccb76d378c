import HostBlocks.Allocation.Release
import HostBlocks.Proofs.History.Changes
import HostBlocks.Proofs.Search

/-!
# Operations that run alone

An operation whose calls no other call comes between does one of a few things, and which one depends on
the record that stands at its block. A search claims the first of its candidates that has no record.
-/
namespace HostBlocks

theorem Program.filed_run {α : Type} (p : Program α) {s : Store} (h : s.Filed) :
    (p.run s).2.Filed := by
  induction p generalizing s with
  | done a => exact h
  | call r next ih => exact ih _ (h.answer r)

namespace Records

variable {α : Type} {m : Std.ExtTreeMap String α} {path : String} {new stored : α}

theorem insertIfNew_of_absent (h : m[path]? = none) : m.insertIfNew path new = m.insert path new := by
  have hmem : path ∉ m := by simp [Std.ExtTreeMap.mem_iff_isSome_getElem?, h]
  apply Std.ExtTreeMap.ext_getElem?
  intro p
  simp [Std.ExtTreeMap.getElem?_insertIfNew, Std.ExtTreeMap.getElem?_insert, hmem]

theorem insertIfNew_of_present (h : m[path]? = some stored) : m.insertIfNew path new = m := by
  have hmem : path ∈ m := Std.ExtTreeMap.mem_iff_isSome_getElem?.2 (by simp [h])
  apply Std.ExtTreeMap.ext_getElem?
  intro p
  rw [Std.ExtTreeMap.getElem?_insertIfNew, if_neg fun hp => hp.2 hmem]

theorem erase_of_absent (h : m[path]? = none) : m.erase path = m := by
  apply Std.ExtTreeMap.ext_getElem?
  intro p
  rw [Std.ExtTreeMap.getElem?_erase]
  split
  · next hp => rw [← Std.LawfulEqCmp.compare_eq_iff_eq.1 hp, h]
  · rfl

theorem erase_insert : (m.insert path new).erase path = m.erase path := by
  apply Std.ExtTreeMap.ext_getElem?
  intro p
  simp only [Std.ExtTreeMap.getElem?_erase, Std.ExtTreeMap.getElem?_insert]
  split <;> rfl

theorem erase_insertIfNew : (m.insertIfNew path new).erase path = m.erase path := by
  cases h : m[path]? with
  | none => rw [insertIfNew_of_absent h, erase_insert]
  | some stored => rw [insertIfNew_of_present h]

end Records

namespace Store

variable (s : Store) (a : Affinity)

theorem affinities_createAffinity :
    (s.createAffinity a).2.affinities = s.affinities.insertIfNew a.path ⟨a, .initial⟩ := by
  cases h : s.affinities[a.path]? with
  | none => simp [createAffinity, h, Records.insertIfNew_of_absent]
  | some record => simp [createAffinity, h, Records.insertIfNew_of_present]

theorem affinities_deleteAffinity :
    (s.deleteAffinity a).2.affinities = s.affinities.erase a.path := by
  cases h : s.affinities[a.path]? with
  | none => simp [deleteAffinity, h, Records.erase_of_absent]
  | some record => simp [deleteAffinity, h]

theorem createAffinity_eq : (s.createAffinity a).2 =
    ⟨s.blocks, s.affinities.insertIfNew a.path ⟨a, .initial⟩⟩ :=
  Store.ext blocks_createAffinity (s.affinities_createAffinity a)

theorem deleteAffinity_eq : (s.deleteAffinity a).2 = ⟨s.blocks, s.affinities.erase a.path⟩ :=
  Store.ext blocks_deleteAffinity (s.affinities_deleteAffinity a)

/-- An affinity record that is made and removed again is gone, also if it was there before. -/
theorem deleteAffinity_createAffinity :
    ((s.createAffinity a).2.deleteAffinity a).2 = (s.deleteAffinity a).2 := by
  rw [deleteAffinity_eq, createAffinity_eq, deleteAffinity_eq, Records.erase_insertIfNew]

end Store

variable {s : Store} {host : String} {policy : Policy} {cidr : Network} {stored : Versioned Block}

theorem run_withdraw {block : Block} :
    (Claim.withdraw cidr host block).run s =
      (.error (.claimedByOther block), (s.deleteAffinity (.of host cidr)).2) := by
  cases hs : s.affinities[(Affinity.of host cidr).path]? <;>
    simp [Claim.withdraw, Store.answer, Store.deleteAffinity, hs, StoreError.isNotFound,
      StoreError.kind]

theorem run_reread_of_absent (h : s.blocks[Block.pathOf cidr]? = none) :
    (Claim.reread cidr host).run s = (.error (.store (.notFound (Block.pathOf cidr))), s) := by
  simp [Claim.reread, Store.answer, Store.getBlock, h]

theorem run_reread_of_own (h : s.blocks[Block.pathOf cidr]? = some stored)
    (ho : stored.value.isOwnedBy host) : (Claim.reread cidr host).run s = (.ok (), s) := by
  simp [Claim.reread, Store.answer, Store.getBlock, h, ho]

theorem run_reread_of_other (h : s.blocks[Block.pathOf cidr]? = some stored)
    (ho : ¬stored.value.isOwnedBy host) : (Claim.reread cidr host).run s =
      (.error (.claimedByOther stored.value), (s.deleteAffinity (.of host cidr)).2) := by
  simp only [Claim.reread, Program.run_call, Store.answer, Store.getBlock, h, if_neg ho]
  exact run_withdraw

/-- The record of a claim is created without host bits, whatever the path of the claimed network. -/
theorem run_create_of_free (h : s.blocks[Block.pathOf cidr.trunc]? = none) :
    (Claim.create cidr host policy).run s = (.ok (),
      ⟨s.blocks.insert (Block.pathOf cidr.trunc)
          ⟨.claimed cidr host policy.strictAffinity, .initial⟩, s.affinities⟩) := by
  have hpath : (Block.claimed cidr host policy.strictAffinity).path = Block.pathOf cidr.trunc := rfl
  simp [Claim.create, Store.answer, Store.createBlock_of_absent (hpath ▸ h), hpath]

theorem run_create_of_taken (h : s.blocks[Block.pathOf cidr.trunc]? = some stored) :
    (Claim.create cidr host policy).run s = (Claim.reread cidr host).run s := by
  have hs : s.blocks[(Block.claimed cidr host policy.strictAffinity).path]? = some stored := h
  simp [Claim.create, Store.answer, Store.createBlock_of_present hs, StoreError.kind]

theorem run_claimBlock : (claimBlock cidr host policy).run s =
    (Claim.create cidr host policy).run (s.createAffinity (.of host cidr)).2 := rfl

theorem run_claimBlock_of_free (h : s.blocks[Block.pathOf cidr.trunc]? = none) :
    (claimBlock cidr host policy).run s = (.ok (),
      ⟨s.blocks.insert (Block.pathOf cidr.trunc)
          ⟨.claimed cidr host policy.strictAffinity, .initial⟩,
        (s.createAffinity (.of host cidr)).2.affinities⟩) := by
  rw [run_claimBlock, run_create_of_free (by rw [Store.blocks_createAffinity, h]),
    Store.blocks_createAffinity]

theorem run_claimBlock_of_taken (h : s.blocks[Block.pathOf cidr.trunc]? = some stored) :
    (claimBlock cidr host policy).run s =
      (Claim.reread cidr host).run (s.createAffinity (.of host cidr)).2 := by
  rw [run_claimBlock, run_create_of_taken (by rw [Store.blocks_createAffinity, h])]

section

variable (hclear : cidr.trunc = cidr)

include hclear

theorem run_claimBlock_of_absent (h : s.blocks[Block.pathOf cidr]? = none) :
    (claimBlock cidr host policy).run s = (.ok (),
      ⟨s.blocks.insert (Block.pathOf cidr) ⟨.claimed cidr host policy.strictAffinity, .initial⟩,
        (s.createAffinity (.of host cidr)).2.affinities⟩) := by
  rw [run_claimBlock_of_free (hclear.symm ▸ h), hclear]

theorem run_claimBlock_of_own (h : s.blocks[Block.pathOf cidr]? = some stored)
    (ho : stored.value.isOwnedBy host) :
    (claimBlock cidr host policy).run s = (.ok (), (s.createAffinity (.of host cidr)).2) := by
  rw [run_claimBlock_of_taken (hclear.symm ▸ h), run_reread_of_own _ ho]
  rw [Store.blocks_createAffinity, h]

theorem run_claimBlock_of_other (h : s.blocks[Block.pathOf cidr]? = some stored)
    (ho : ¬stored.value.isOwnedBy host) :
    (claimBlock cidr host policy).run s = (.error (.claimedByOther stored.value),
      ((s.createAffinity (.of host cidr)).2.deleteAffinity (.of host cidr)).2) := by
  rw [run_claimBlock_of_taken (hclear.symm ▸ h), run_reread_of_other _ ho]
  rw [Store.blocks_createAffinity, h]

end

theorem run_cleanUp {disposition : Disposition} :
    (Release.cleanUp host cidr disposition).run s =
      (.ok ⟨cidr, disposition, none⟩, (s.deleteAffinity (.of host cidr)).2) := by
  cases hs : s.affinities[(Affinity.of host cidr).path]? <;>
    simp [Release.cleanUp, Store.answer, Store.deleteAffinity, hs, StoreError.isNotFound,
      StoreError.kind]

section

variable (again : Unit → Program (Outcome Released))

theorem run_round_of_absent (h : s.blocks[Block.pathOf cidr]? = none) :
    (Release.round host cidr again).run s =
      (.error (.store (.notFound (Block.pathOf cidr))), s) := by
  simp [Release.round, Store.answer, Store.getBlock, h]

theorem run_round_of_other (h : s.blocks[Block.pathOf cidr]? = some stored)
    (ho : stored.value.isOwnedByOther host) :
    (Release.round host cidr again).run s = (.error (.claimedByOther stored.value), s) := by
  simp [Release.round, Store.answer, Store.getBlock, h, ho]

theorem run_round_of_empty (h : s.blocks[Block.pathOf cidr]? = some stored)
    (ho : ¬stored.value.isOwnedByOther host) (he : stored.value.isEmpty) :
    (Release.round host cidr again).run s = (.ok ⟨cidr, .deleted, none⟩,
      ((⟨s.blocks.erase (Block.pathOf cidr), s.affinities⟩ : Store).deleteAffinity
        (.of host cidr)).2) := by
  simp only [Release.round, Program.run_call, Store.answer, Store.getBlock, h, if_neg ho, if_pos he,
    Release.delete, Store.deleteBlock_of_present h]
  exact run_cleanUp

theorem run_round_of_leased (hfiled : s.Filed) (h : s.blocks[Block.pathOf cidr]? = some stored)
    (ho : ¬stored.value.isOwnedByOther host) (he : ¬stored.value.isEmpty) :
    (Release.round host cidr again).run s = (.ok ⟨cidr, .affinityCleared, none⟩,
      ((⟨s.blocks.insert (Block.pathOf cidr) ⟨stored.value.released, stored.revision.next⟩,
        s.affinities⟩ : Store).deleteAffinity (.of host cidr)).2) := by
  have hpath : stored.value.released.path = Block.pathOf cidr := hfiled.blocks h
  have hs : s.blocks[stored.value.released.path]? = some stored := hpath ▸ h
  simp only [Release.round, Program.run_call, Store.answer, Store.getBlock, h, if_neg ho, if_neg he,
    Release.clear,
    Store.updateBlock_of_current (v := ⟨stored.value.released, stored.revision⟩) hs rfl, hpath]
  exact run_cleanUp

end

/-- A release that runs alone needs one round, and no matter what would come after it. -/
theorem run_releaseBlock (hfiled : s.Filed) {bound : Nat} (hbound : 1 ≤ bound)
    (again : Unit → Program (Outcome Released)) :
    (releaseBlock bound host cidr).run s = (Release.round host cidr again).run s := by
  obtain ⟨left, rfl⟩ := Nat.exists_eq_add_of_le' hbound
  rw [releaseBlock, Release.rounds]
  cases hs : s.blocks[Block.pathOf cidr]? with
  | none => rw [run_round_of_absent _ hs, run_round_of_absent _ hs]
  | some stored =>
    by_cases ho : stored.value.isOwnedByOther host
    · rw [run_round_of_other _ hs ho, run_round_of_other _ hs ho]
    · by_cases he : stored.value.isEmpty
      · rw [run_round_of_empty _ hs ho he, run_round_of_empty _ hs ho he]
      · rw [run_round_of_leased _ hfiled hs ho he, run_round_of_leased _ hfiled hs ho he]

/-- A search claims the first candidate without a record, if there is one. -/
theorem run_probe (otherwise : Program (Outcome Network)) (candidates : List Network) :
    ((∀ c ∈ candidates, ∃ stored, s.blocks[Block.pathOf c]? = some stored) ∧
      (Claim.probe host policy otherwise candidates).run s = otherwise.run s) ∨
    ∃ front c back, candidates = front ++ c :: back ∧
      (∀ c ∈ front, ∃ stored, s.blocks[Block.pathOf c]? = some stored) ∧
      s.blocks[Block.pathOf c]? = none ∧
      (Claim.probe host policy otherwise candidates).run s = (Claim.found c host policy).run s := by
  induction candidates with
  | nil => exact Or.inl ⟨nofun, rfl⟩
  | cons c rest ih =>
    cases h : s.blocks[Block.pathOf c]? with
    | none =>
      refine Or.inr ⟨[], c, rest, rfl, nofun, h, ?_⟩
      simp [Claim.probe, Store.answer, Store.getBlock, h, StoreError.isNotFound, StoreError.kind]
    | some stored =>
      have hrun : (Claim.probe host policy otherwise (c :: rest)).run s =
          (Claim.probe host policy otherwise rest).run s := by
        simp [Claim.probe, Store.answer, Store.getBlock, h]
      have hc : ∀ front : List Network,
          (∀ c ∈ front, ∃ stored, s.blocks[Block.pathOf c]? = some stored) →
          ∀ c' ∈ c :: front, ∃ stored, s.blocks[Block.pathOf c']? = some stored := by
        intro front hfront
        exact List.forall_mem_cons.2 ⟨⟨stored, h⟩, hfront⟩
      rw [hrun]
      rcases ih with ⟨hrest, hrun'⟩ | ⟨front, c', back, rfl, hfront, hfree, hrun'⟩
      · exact Or.inl ⟨hc rest hrest, hrun'⟩
      · exact Or.inr ⟨c :: front, c', back, rfl, hc front hfront, hfree, hrun'⟩

end HostBlocks
