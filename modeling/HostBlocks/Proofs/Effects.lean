import HostBlocks.Proofs.Runs

/-!
# What claims and releases of a block change

A claim or a release of a given block that runs alone changes the record of that block and the host's
affinity record for it, and no other. Which of the two it changes, and how, depends only on who owns the
block and, for a release, on whether addresses are leased from it. One that is refused changes no block.
-/
namespace HostBlocks

/-- A claim of a block that runs alone succeeds exactly if there is no record of the block or the host
owns it. It adds the record and an affinity record unless they are there. Otherwise it fails with the
record as it stands, and the host has no affinity record for the block afterwards. -/
theorem claimBlock_effect (s : Store) (host : String) (policy : Policy) (cidr : Network)
    (hclear : cidr.trunc = cidr) :
    let ran := (claimBlock cidr host policy).run s
    let path := Block.pathOf cidr
    let entry : Affinity := ⟨host, cidr⟩
    (ran.1 = .ok () ↔ ∀ stored, s.blocks[path]? = some stored → stored.value.affinity = some host) ∧
    (ran.1 = .ok () → ran.2 =
      ⟨s.blocks.insertIfNew path ⟨⟨cidr, some host, policy.strictAffinity, ∅⟩, .initial⟩,
        s.affinities.insertIfNew entry.path ⟨entry, .initial⟩⟩) ∧
    ∀ e, ran.1 = .error e →
      (∃ stored, s.blocks[path]? = some stored ∧ stored.value.affinity ≠ some host ∧
        e = .claimedByOther stored.value) ∧
      ran.2 = ⟨s.blocks, s.affinities.erase entry.path⟩ ∧
      (s.affinities[entry.path]? = none → ran.2 = s) := by
  intro ran path entry
  have hof : Affinity.of host cidr = entry := congrArg (Affinity.mk host) hclear
  have hclaimed : Block.claimed cidr host policy.strictAffinity =
      ⟨cidr, some host, policy.strictAffinity, ∅⟩ := by
    rw [Block.claimed, Block.of, hclear]
  cases hs : s.blocks[path]? with
  | none =>
    have hran : ran = _ := run_claimBlock_of_absent hclear hs
    rw [hran, hof, hclaimed, Store.affinities_createAffinity, Records.insertIfNew_of_absent hs]
    exact ⟨by simp, fun _ => rfl, nofun⟩
  | some stored =>
    by_cases ho : stored.value.isOwnedBy host
    · have hran : ran = _ := run_claimBlock_of_own hclear hs ho
      rw [hran, hof, Records.insertIfNew_of_present hs]
      exact ⟨by simpa [Block.isOwnedBy] using ho, fun _ => s.createAffinity_eq entry, nofun⟩
    · have hran : ran = _ := run_claimBlock_of_other hclear hs ho
      rw [hran, hof, Store.deleteAffinity_createAffinity]
      have hother : stored.value.affinity ≠ some host := by simpa [Block.isOwnedBy] using ho
      refine ⟨by simpa using hother, nofun, ?_⟩
      rintro e ⟨⟩
      exact ⟨⟨stored, rfl, hother, rfl⟩, s.deleteAffinity_eq entry,
        fun hs => by simp [Store.deleteAffinity, hs]⟩

/-- The block belongs to no host, and the claim removes the affinity record that the host still had. -/
theorem claimBlock_effect_of_unowned :
    let cidr : Network := ⟨⟨.v4, 0x0A000040, by decide⟩, 26, by decide⟩
    let lease : Address := ⟨.v4, 0x0A000041, by decide⟩
    let s : Store := ⟨(∅ : Std.ExtTreeMap String (Versioned Block)).insert (Block.pathOf cidr)
        ⟨⟨cidr, none, true, {lease}⟩, Revision.initial.next⟩,
      (∅ : Std.ExtTreeMap String (Versioned Affinity)).insert (Affinity.path ⟨"host", cidr⟩)
        ⟨⟨"host", cidr⟩, .initial⟩⟩
    cidr.trunc = cidr ∧ (claimBlock cidr "host" ⟨true⟩).run s =
      (.error (.claimedByOther ⟨cidr, none, true, {lease}⟩), ⟨s.blocks, ∅⟩) := by
  intro cidr lease s
  have hclear : cidr.trunc = cidr := by decide +kernel
  obtain ⟨-, -, hfail⟩ := claimBlock_effect s "host" ⟨true⟩ cidr hclear
  have hrefused : ((claimBlock cidr "host" ⟨true⟩).run s).1 =
      .error (.claimedByOther ⟨cidr, none, true, {lease}⟩) := by decide +kernel
  obtain ⟨-, hstore, -⟩ := hfail _ hrefused
  refine ⟨hclear, Prod.ext hrefused (hstore.trans ?_)⟩
  decide +kernel

section

variable (s : Store) (host : String) (cidr : Network)

/-- A release that runs alone ends in its first round. It changes nothing and fails if there is no record
of the block or another host owns it. Otherwise it removes the record, or only its owner if addresses
are leased from the block, and the affinity record of the host. A record that stays goes to its next
revision, which is the first again after the last. -/
theorem releaseBlock_effect (hfiled : s.Filed) (bound : Nat) (hbound : 1 ≤ bound) :
    let ran := (releaseBlock bound host cidr).run s
    let path := Block.pathOf cidr
    let entry : Affinity := ⟨host, cidr.trunc⟩
    (∀ again, ran = (Release.round host cidr again).run s) ∧
    (s.blocks[path]? = none → ran = (.error (.store (.notFound path)), s)) ∧
    ∀ stored, s.blocks[path]? = some stored →
      (∀ owner, stored.value.affinity = some owner → owner ≠ host →
        ran = (.error (.claimedByOther stored.value), s)) ∧
      ((∀ owner, stored.value.affinity = some owner → owner = host) →
        (stored.value.allocated = ∅ → ran = (.ok ⟨cidr, .deleted, none⟩,
          ⟨s.blocks.erase path, s.affinities.erase entry.path⟩)) ∧
        (stored.value.allocated ≠ ∅ → ran = (.ok ⟨cidr, .affinityCleared, none⟩,
          ⟨s.blocks.insert path ⟨{ stored.value with affinity := none }, stored.revision.next⟩,
            s.affinities.erase entry.path⟩) ∧
          stored.revision.next.number =
            if stored.revision.number + 1 < 2 ^ 64 then stored.revision.number + 1 else 1)) := by
  intro ran path entry
  have hround : ∀ again, ran = (Release.round host cidr again).run s := run_releaseBlock hfiled hbound
  let again : Unit → Program (Outcome Released) := fun _ => releaseBlock bound host cidr
  refine ⟨hround, fun hs => (hround again).trans (run_round_of_absent again hs), ?_⟩
  intro stored hs
  refine ⟨fun owner howner hne => ?_, fun hmine => ?_⟩
  · have ho : stored.value.isOwnedByOther host :=
      (Block.isOwnedByOther_iff _ _).2 ⟨owner, howner, hne⟩
    exact (hround again).trans (run_round_of_other again hs ho)
  have ho : ¬stored.value.isOwnedByOther host := by
    rw [Block.isOwnedByOther_iff]
    rintro ⟨owner, howner, hne⟩
    exact hne (hmine owner howner)
  refine ⟨fun hempty => ?_, fun hleased => ?_⟩
  · have he : stored.value.isEmpty := by simp [Block.isEmpty, hempty]
    rw [hround again, run_round_of_empty again hs ho he, Store.deleteAffinity_eq]
    rfl
  · have he : ¬stored.value.isEmpty := by simpa [Block.isEmpty] using hleased
    refine ⟨?_, stored.revision.number_next⟩
    rw [hround again, run_round_of_leased again hfiled hs ho he, Store.deleteAffinity_eq]
    rfl

end

/-- An address is leased from the block, and another block and its affinity record stand beside it. -/
theorem releaseBlock_effect_of_leased :
    let cidr : Network := ⟨⟨.v4, 0x0A000000, by decide⟩, 26, by decide⟩
    let beside : Network := ⟨⟨.v4, 0x0A000040, by decide⟩, 26, by decide⟩
    let leased : Block := ⟨cidr, some "host", true, {⟨.v4, 0x0A000001, by decide⟩}⟩
    let s := Store.empty.after [.createBlock (.claimed beside "host" false),
      .createAffinity ⟨"host", beside⟩, .createBlock (.claimed cidr "host" true),
      .createAffinity ⟨"host", cidr⟩, .updateBlock ⟨leased, .initial⟩]
    let kept := Store.empty.after [.createBlock (.claimed beside "host" false),
      .createAffinity ⟨"host", beside⟩]
    let third := Revision.initial.next.next
    s.Filed ∧ third.number = 3 ∧ (releaseBlock 1 "host" cidr).run s =
      (.ok ⟨cidr, .affinityCleared, none⟩,
        ⟨kept.blocks.insert (Block.pathOf cidr) ⟨{ leased with affinity := none }, third⟩,
          kept.affinities⟩) := by
  intro cidr beside leased s kept third
  have hfiled : s.Filed := Store.filed_empty.after _
  obtain ⟨-, -, hpresent⟩ := releaseBlock_effect s "host" cidr hfiled 1 (Nat.le_refl 1)
  have hs : s.blocks[Block.pathOf cidr]? = some ⟨leased, Revision.initial.next⟩ := by decide +kernel
  obtain ⟨-, hmine⟩ := hpresent _ hs
  obtain ⟨-, hcleared⟩ := hmine fun owner howner => (Option.some.inj howner).symm
  obtain ⟨hran, hnumber⟩ := hcleared (by decide +kernel)
  refine ⟨hfiled, hnumber, hran.trans ?_⟩
  decide +kernel

/-- A record with a lease is at the last revision, and its release leaves it at the first. A host has an
affinity record for one network and owns another of the same name, and releasing the block that it owns
removes this affinity record. -/
theorem releaseBlock_wraps_and_removes_lookalike :
    let cidr : Network := ⟨⟨.v4, 0x0A000000, by decide⟩, 26, by decide⟩
    let leased : Block := ⟨cidr, some "host", false, {⟨.v4, 0x0A000001, by decide⟩}⟩
    let last : Revision := ⟨2 ^ 64 - 1, by decide, by decide⟩
    let worn : Store := ⟨Store.empty.blocks.insert (Block.pathOf cidr) ⟨leased, last⟩, ∅⟩
    let mapped : Network := ⟨⟨.v6, 0xFFFF01020300, by decide⟩, 122, by decide⟩
    let plain : Network := ⟨⟨.v6, 0xFFFF0001000200030000, by decide⟩, 122, by decide⟩
    let shared := Store.empty.after [.createAffinity ⟨"host", mapped⟩,
      .createBlock (.claimed plain "host" false)]
    (worn.Filed ∧ cidr.trunc = cidr ∧
      (releaseBlock 1 "host" cidr).run worn = (.ok ⟨cidr, .affinityCleared, none⟩,
        ⟨worn.blocks.insert (Block.pathOf cidr) ⟨{ leased with affinity := none }, .initial⟩, ∅⟩) ∧
      Revision.initial.number ≠ last.number + 1) ∧
    (shared.Filed ∧ plain.trunc = plain ∧
      shared.listAffinities ⟨none, none⟩ = [⟨⟨"host", mapped⟩, .initial⟩] ∧ mapped ≠ plain ∧
      (releaseBlock 1 "host" plain).run shared = (.ok ⟨plain, .deleted, none⟩, .empty)) := by
  intro cidr leased last worn mapped plain shared
  have hworn : worn.Filed := Store.filed_empty.insert ⟨leased, last⟩
  refine ⟨⟨hworn, ?_, ?_, ?_⟩, Store.filed_empty.after _, ?_, ?_, ?_, ?_⟩
  · decide +kernel
  · decide +kernel
  · decide
  · decide +kernel
  · decide +kernel
  · decide +kernel
  · decide +kernel

end HostBlocks
