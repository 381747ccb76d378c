import HostBlocks.Proofs.Names.Paths
import HostBlocks.Proofs.Runs

/-!
# Claiming again

A claim creates the record of the block that the network lies in, and what it meets there it reads at
the network as given. Where host bits are set these are two paths, and a host that claims such a network
again does not find the record that it has made.
-/
namespace HostBlocks

variable {s : Store} {cidr : Network} {host : String} {policy : Policy}

/-- Where a claim succeeds, it creates the record or finds one of its host at the network as given. -/
theorem run_claimBlock_ok_cases (h : ((claimBlock cidr host policy).run s).1 = .ok ()) :
    (s.blocks[Block.pathOf cidr.trunc]? = none ∧
      ((claimBlock cidr host policy).run s).2 =
        ⟨s.blocks.insert (Block.pathOf cidr.trunc)
          ⟨.claimed cidr host policy.strictAffinity, .initial⟩,
          (s.createAffinity (.of host cidr)).2.affinities⟩) ∨
    ∃ taken own, s.blocks[Block.pathOf cidr.trunc]? = some taken ∧
      s.blocks[Block.pathOf cidr]? = some own ∧ own.value.isOwnedBy host ∧
      ((claimBlock cidr host policy).run s).2 = (s.createAffinity (.of host cidr)).2 := by
  cases htrunc : s.blocks[Block.pathOf cidr.trunc]? with
  | none => exact Or.inl ⟨rfl, by rw [run_claimBlock_of_free htrunc]⟩
  | some taken =>
    rw [run_claimBlock_of_taken htrunc] at h ⊢
    cases hs : s.blocks[Block.pathOf cidr]? with
    | none =>
      rw [run_reread_of_absent (by rw [Store.blocks_createAffinity, hs])] at h
      cases h
    | some own =>
      have hread : (s.createAffinity (.of host cidr)).2.blocks[Block.pathOf cidr]? = some own := by
        rw [Store.blocks_createAffinity, hs]
      by_cases ho : own.value.isOwnedBy host
      · exact Or.inr ⟨taken, own, rfl, rfl, ho, by rw [run_reread_of_own hread ho]⟩
      · rw [run_reread_of_other hread ho] at h
        cases h

section

variable (h : ((claimBlock cidr host policy).run s).1 = .ok ())

include h

/-- The records of a successful claim are in place, so that claiming again only reads. -/
theorem run_claimBlock_again :
    (claimBlock cidr host policy).run ((claimBlock cidr host policy).run s).2 =
      (Claim.reread cidr host).run ((claimBlock cidr host policy).run s).2 := by
  obtain ⟨record, hrecord⟩ := Store.exists_getElem?_createAffinity (s := s) (a := .of host cidr)
  have hlisted : ((claimBlock cidr host policy).run s).2.affinities[(Affinity.of host cidr).path]? =
      some record := by
    rcases run_claimBlock_ok_cases h with ⟨-, hs⟩ | ⟨_, _, -, -, -, hs⟩ <;> rw [hs, hrecord]
  have htaken : ∃ taken, ((claimBlock cidr host policy).run s).2.blocks[Block.pathOf cidr.trunc]? =
      some taken := by
    rcases run_claimBlock_ok_cases h with ⟨-, hs⟩ | ⟨taken, _, htaken, -, -, hs⟩
    · exact ⟨_, by rw [hs, Std.ExtTreeMap.getElem?_insert_self]⟩
    · exact ⟨taken, by rw [hs, Store.blocks_createAffinity, htaken]⟩
  obtain ⟨taken, htaken⟩ := htaken
  rw [run_claimBlock_of_taken htaken, Store.createAffinity_of_present hlisted]

theorem own_of_claimed_of_clear (hclear : cidr.trunc = cidr) :
    ∃ own, ((claimBlock cidr host policy).run s).2.blocks[Block.pathOf cidr]? = some own ∧
      own.value.isOwnedBy host := by
  rcases run_claimBlock_ok_cases h with ⟨-, hs⟩ | ⟨_, own, -, hown, ho, hs⟩
  · refine ⟨⟨.claimed cidr host policy.strictAffinity, .initial⟩, ?_, ?_⟩
    · rw [hs, hclear, Std.ExtTreeMap.getElem?_insert_self]
    · simp [Block.isOwnedBy, Block.claimed]
  · exact ⟨own, by rw [hs, Store.blocks_createAffinity, hown], ho⟩

theorem getElem?_claimed_of_host_bits (hbits : cidr.trunc ≠ cidr) :
    ((claimBlock cidr host policy).run s).2.blocks[Block.pathOf cidr]? =
      s.blocks[Block.pathOf cidr]? := by
  rcases run_claimBlock_ok_cases h with ⟨-, hs⟩ | ⟨_, _, -, -, -, hs⟩
  · have hpath : Block.pathOf cidr.trunc ≠ Block.pathOf cidr := mt Block.pathOf_trunc_eq_iff.1 hbits
    simp [hs, Std.ExtTreeMap.getElem?_insert, hpath]
  · rw [hs, Store.blocks_createAffinity]

/-- A host that has claimed a network claims it again exactly if no host bits are set, or if it already
had the record at the path of the network as given. If it does, nothing changes. If not, that path had
no record, or the record of another owner, and then the host loses its affinity record. -/
theorem claimBlock_again_iff :
    let first := ((claimBlock cidr host policy).run s).2
    let again := (claimBlock cidr host policy).run first
    (again.1 = .ok () ↔ cidr.trunc = cidr ∨
      ∃ own, s.blocks[Block.pathOf cidr]? = some own ∧ own.value.isOwnedBy host) ∧
    (again.1 = .ok () → again.2 = first) ∧
    ∀ e, again.1 = .error e →
      (s.blocks[Block.pathOf cidr]? = none ∧ e = .store (.notFound (Block.pathOf cidr)) ∧
        again.2 = first) ∨
      ∃ other, s.blocks[Block.pathOf cidr]? = some other ∧ e = .claimedByOther other.value ∧
        again.2 = (first.deleteAffinity (.of host cidr)).2 := by
  intro first again
  have hagain : again = (Claim.reread cidr host).run first := run_claimBlock_again h
  by_cases hclear : cidr.trunc = cidr
  · obtain ⟨own, hown, ho⟩ := own_of_claimed_of_clear h hclear
    have hrun : again = (.ok (), first) := hagain.trans (run_reread_of_own hown ho)
    simp [hrun, hclear]
  have hsame : first.blocks[Block.pathOf cidr]? = s.blocks[Block.pathOf cidr]? :=
    getElem?_claimed_of_host_bits h hclear
  cases hs : s.blocks[Block.pathOf cidr]? with
  | none =>
    have hrun := hagain.trans (run_reread_of_absent (hsame.trans hs))
    simp [hrun, hclear]
  | some stored =>
    by_cases ho : stored.value.isOwnedBy host
    · have hrun := hagain.trans (run_reread_of_own (hsame.trans hs) ho)
      simp [hrun, ho]
    · have hrun := hagain.trans (run_reread_of_other (hsame.trans hs) ho)
      simp [hrun, hclear, ho]

end

/-- A network with host bits that has the path of a block of another host. The owner of that block can
claim it again. The host that claimed the network cannot, and loses its affinity record by trying. -/
theorem claimBlock_again_iff_of_lookalike :
    let plain : Network := ⟨⟨.v6, 0xffff0001000200030000, by decide⟩, 112, by decide⟩
    let mapped : Network := ⟨⟨.v6, 0xffff01020300, by decide⟩, 112, by decide⟩
    let s := ((claimBlock plain "other" ⟨false⟩).run .empty).2
    let first := (claimBlock mapped "host" ⟨false⟩).run s
    let again := (claimBlock mapped "host" ⟨false⟩).run first.2
    first.1 = .ok () ∧
      (again.1 = .ok () ↔ mapped.trunc = mapped ∨
        ∃ own, s.blocks[Block.pathOf mapped]? = some own ∧ own.value.isOwnedBy "host") ∧
      again.1 = .error (.claimedByOther (.claimed plain "other" false)) ∧
      again.2 ≠ first.2 ∧
      ((claimBlock plain "other" ⟨false⟩).run s).1 = .ok () := by
  intro plain mapped s first again
  have hfirst : first.1 = .ok () := by decide +kernel
  have hother : ((claimBlock plain "other" ⟨false⟩).run .empty).1 = .ok () := by decide +kernel
  refine ⟨hfirst, (claimBlock_again_iff hfirst).1, ?_, ?_,
    (claimBlock_again_iff hother).1.2 (Or.inl ?_)⟩
  all_goals decide +kernel

/-- A host claims a network with host bits, and claiming it again fails. -/
theorem claimBlock_again_fails :
    let cidr : Network := ⟨⟨.v4, 0x0A000005, by decide⟩, 26, by decide⟩
    let first := (claimBlock cidr "host" ⟨false⟩).run .empty
    first.1 = .ok () ∧ (claimBlock cidr "host" ⟨false⟩).run first.2 =
      (.error (.store (.notFound (Block.pathOf cidr))), first.2) := by
  decide +kernel

end HostBlocks
