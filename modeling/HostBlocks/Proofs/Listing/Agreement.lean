import HostBlocks.Allocation.Listing
import HostBlocks.Proofs.Interleaving.System
import HostBlocks.Proofs.Listing.Scan
import HostBlocks.Proofs.Names.Paths
import HostBlocks.Proofs.Runs

/-!
# Listings after whole operations

When operations run one after the other, the affinity records are those of the owned blocks after each
of them. So a listing of a host's blocks has exactly the blocks that the block records give to the host,
though it looks at no block record.
-/
namespace HostBlocks

namespace Store

structure Agrees (s : Store) : Prop where
  filed : s.Filed
  records_iff : ∀ a, s.Records a ↔ s.Confirms a

variable {s s' : Store} {a b : Affinity} {path : String} {new stored : Versioned Block}

theorem agrees_empty : empty.Agrees where
  filed := filed_empty
  records_iff a := by simp [Records, Confirms, empty]

namespace Agrees

/-- A host has an affinity record for a path exactly if the block record there names it. -/
theorem recorded_iff (h : s.Agrees) :
    (∃ record, s.affinities[a.path]? = some record) ↔
      ∃ stored, s.blocks[Block.pathOf a.cidr]? = some stored ∧
        stored.value.affinity = some a.host := by
  constructor
  · rintro ⟨record, hrecord⟩
    have hpath := h.filed.affinities hrecord
    obtain ⟨hhost, hblock⟩ := Affinity.path_eq_iff.1 hpath
    obtain ⟨stored, hstored, -, howner⟩ :=
      (h.records_iff record.value).1 ⟨record, hpath ▸ hrecord, rfl⟩
    exact ⟨stored, hblock ▸ hstored, hhost ▸ howner⟩
  · rintro ⟨stored, hstored, howner⟩
    have hblock : Block.pathOf stored.value.cidr = Block.pathOf a.cidr := h.filed.blocks hstored
    obtain ⟨record, hrecord, -⟩ :=
      (h.records_iff ⟨a.host, stored.value.cidr⟩).2 ⟨stored, hblock ▸ hstored, rfl, howner⟩
    have hpath : (⟨a.host, stored.value.cidr⟩ : Affinity).path = a.path :=
      Affinity.path_eq_iff.2 ⟨rfl, hblock⟩
    exact ⟨record, hpath ▸ hrecord⟩

theorem unrecorded (h : s.Agrees)
    (hnot : ∀ stored, s.blocks[Block.pathOf a.cidr]? = some stored →
      stored.value.affinity ≠ some a.host) : s.affinities[a.path]? = none := by
  rw [Option.eq_none_iff_forall_ne_some]
  intro record hrecord
  obtain ⟨stored, hstored, howner⟩ := h.recorded_iff.1 ⟨record, hrecord⟩
  exact hnot stored hstored howner

/-- The new record of a claimed block goes with a new affinity record. -/
theorem claimed (h : s.Agrees) (new : Versioned Block)
    (hnone : s.blocks[Block.pathOf a.cidr]? = none) (hcidr : new.value.cidr = a.cidr)
    (howner : new.value.affinity = some a.host) :
    let now : Store :=
      ⟨s.blocks.insert (Block.pathOf a.cidr) new, (s.createAffinity a).2.affinities⟩
    now.Records b ↔ now.Confirms b := by
  intro now
  have hfree : s.affinities[a.path]? = none := by
    apply h.unrecorded
    intro stored hstored
    cases hnone.symm.trans hstored
  refine (records_createAffinity hfree).trans (Iff.trans ?_ confirms_insert.symm)
  by_cases hp : Block.pathOf b.cidr = Block.pathOf a.cidr
  · have hnot : ¬s.Records b := by
      rw [h.records_iff]
      rintro ⟨stored, hstored, -⟩
      rw [hp, hnone] at hstored
      cases hstored
    rw [if_pos hp, hcidr, howner, Option.some.injEq]
    by_cases hpath : b.path = a.path
    · rw [if_pos hpath]
      obtain ⟨hhost, -⟩ := Affinity.path_eq_iff.1 hpath
      cases a
      cases b
      simp_all [eq_comm]
    · rw [if_neg hpath]
      refine iff_of_false hnot fun hsame => hpath ?_
      exact Affinity.path_eq_iff.2 ⟨hsame.2.symm, hp⟩
  · have hpath : b.path ≠ a.path := fun hpath => hp (Affinity.path_eq_iff.1 hpath).2
    rw [if_neg hp, if_neg hpath, h.records_iff]

/-- A host that claims its own block finds its affinity record in place. -/
theorem createAffinity_of_owned (h : s.Agrees)
    (hs : s.blocks[Block.pathOf a.cidr]? = some stored)
    (howner : stored.value.affinity = some a.host) : (s.createAffinity a).2 = s := by
  obtain ⟨record, hrecord⟩ := h.recorded_iff.2 ⟨stored, hs, howner⟩
  rw [createAffinity_of_present hrecord]

/-- A host that claims a block of another withdraws the affinity record that it has made. -/
theorem withdrawn (h : s.Agrees) (hs : s.blocks[Block.pathOf a.cidr]? = some stored)
    (howner : stored.value.affinity ≠ some a.host) :
    let now := ((s.createAffinity a).2.deleteAffinity a).2
    now.Records b ↔ now.Confirms b := by
  intro now
  have hfree : s.affinities[a.path]? = none := by
    apply h.unrecorded
    intro stored' hstored'
    cases hs.symm.trans hstored'
    exact howner
  have hother : s.Records b → b.path ≠ a.path := by
    rintro ⟨record, hrecord, -⟩ hpath
    rw [hpath, hfree] at hrecord
    cases hrecord
  rw [records_deleteAffinity, records_createAffinity hfree,
    confirms_of_blocks_eq (blocks_deleteAffinity.trans blocks_createAffinity), ← h.records_iff]
  constructor
  · rintro ⟨hpath, hrecords⟩
    rwa [if_neg hpath] at hrecords
  · intro hrecords
    rw [if_neg (hother hrecords)]
    exact ⟨hother hrecords, hrecords⟩

/-- When a block of a host, or of nobody, loses its owner the affinity record goes. -/
theorem released (h : s.Agrees) (hs : s.blocks[Block.pathOf a.cidr]? = some stored)
    (howner : ¬stored.value.isOwnedByOther a.host) (hsame : s'.affinities = s.affinities)
    (hlost : s'.Confirms b ↔ Block.pathOf b.cidr ≠ Block.pathOf a.cidr ∧ s.Confirms b) :
    (s'.deleteAffinity a).2.Records b ↔ (s'.deleteAffinity a).2.Confirms b := by
  have hrecords : s'.Records b ↔ s.Records b := by rw [Records, Records, hsame]
  rw [records_deleteAffinity, hrecords, confirms_of_blocks_eq blocks_deleteAffinity, hlost,
    h.records_iff]
  apply and_congr_left
  rintro ⟨stored', hstored', -, howner'⟩
  rw [ne_eq, ne_eq, Affinity.path_eq_iff, not_iff_not, and_iff_right_iff_imp]
  intro hp
  rw [hp, hs] at hstored'
  cases hstored'
  by_contra hne
  exact howner ((Block.isOwnedByOther_iff _ _).2 ⟨b.host, howner', hne⟩)

variable {host : String} {policy : Policy} {cidr : Network}

theorem run_claimBlock (h : s.Agrees) (hclear : cidr.trunc = cidr) :
    ((claimBlock cidr host policy).run s).2.Agrees := by
  refine ⟨Program.filed_run _ h.filed, fun b => ?_⟩
  have hof : Affinity.of host cidr = ⟨host, cidr⟩ := congrArg (Affinity.mk host) hclear
  cases hs : s.blocks[Block.pathOf cidr]? with
  | none =>
    rw [run_claimBlock_of_absent hclear hs, hof]
    exact h.claimed (a := ⟨host, cidr⟩) ⟨.claimed cidr host policy.strictAffinity, .initial⟩ hs
      hclear rfl
  | some stored =>
    by_cases ho : stored.value.isOwnedBy host
    · rw [run_claimBlock_of_own hclear hs ho, hof, h.createAffinity_of_owned (a := ⟨host, cidr⟩) hs]
      · exact h.records_iff b
      · simpa [Block.isOwnedBy] using ho
    · rw [run_claimBlock_of_other hclear hs ho, hof]
      exact h.withdrawn (a := ⟨host, cidr⟩) hs (by simpa [Block.isOwnedBy] using ho)

theorem run_releaseBlock (h : s.Agrees) (hclear : cidr.trunc = cidr) (bound : Nat) :
    ((releaseBlock bound host cidr).run s).2.Agrees := by
  refine ⟨Program.filed_run _ h.filed, fun b => ?_⟩
  have hof : Affinity.of host cidr = ⟨host, cidr⟩ := congrArg (Affinity.mk host) hclear
  cases bound with
  | zero => exact h.records_iff b
  | succ bound =>
    rw [releaseBlock, Release.rounds]
    cases hs : s.blocks[Block.pathOf cidr]? with
    | none =>
      rw [run_round_of_absent _ hs]
      exact h.records_iff b
    | some stored =>
      by_cases ho : stored.value.isOwnedByOther host
      · rw [run_round_of_other _ hs ho]
        exact h.records_iff b
      · by_cases he : stored.value.isEmpty
        · rw [run_round_of_empty _ hs ho he, hof]
          exact h.released (a := ⟨host, cidr⟩) hs ho rfl confirms_erase
        · rw [run_round_of_leased _ h.filed hs ho he, hof]
          refine h.released (a := ⟨host, cidr⟩) hs ho rfl ?_
          rw [confirms_insert]
          simp [Block.released]

end Agrees

end Store

namespace Claim

variable {s : Store} {host : String} {policy : Policy}

theorem agrees_run_probe (h : s.Agrees) {e : AllocationError} {candidates : List Network}
    (hclear : ∀ c ∈ candidates, c.trunc = c) :
    ((probe host policy (.done (.error e)) candidates).run s).2.Agrees := by
  rcases run_probe (.done (.error e)) candidates with ⟨-, hrun⟩ | ⟨front, c, back, rfl, -, -, hrun⟩
  · rw [hrun]
    exact h
  · rw [hrun, found, Program.run_map]
    exact h.run_claimBlock (hclear c (List.mem_append_right _ List.mem_cons_self))

theorem agrees_run_claimFree (h : s.Agrees) (settings : Settings) (catalog : Catalog)
    (words : Nat → Words) (family : Family) (requested : Option Network) :
    ((claimFree settings catalog words host family requested policy).run s).2.Agrees := by
  rcases claimFree_cases settings host family policy catalog words requested with
    ⟨e, -, he⟩ | ⟨pools, -, -, hprobe⟩
  · rw [he]
    exact h
  · rw [hprobe]
    exact agrees_run_probe h fun _ => trunc_of_mem_candidates

end Claim

/-- An operation as a whole, or a change of the leases of a block: the block is read, and written back
with other leases. -/
inductive Action where
  | operate (operation : Operation)
  | lease (cidr : Network) (edit : Versioned Block → Std.ExtTreeSet Address)

namespace Action

def program : Action → Program Unit
  | operate operation => operation.program.map fun _ => ()
  | lease cidr edit =>
    .call (.getBlock cidr) fun
      | .ok read =>
        .call (.updateBlock ⟨{ read.value with allocated := edit read }, read.revision⟩) fun _ =>
          .done ()
      | .error _ => .done ()

def IsClear : Action → Prop
  | operate operation => operation.IsClear
  | lease _ _ => True

instance : DecidablePred IsClear
  | operate operation => inferInstanceAs (Decidable operation.IsClear)
  | lease _ _ => inferInstanceAs (Decidable True)

end Action

namespace Store

variable {s : Store}

def acted (s : Store) (actions : List Action) : Store :=
  actions.foldl (fun s action => (action.program.run s).2) s

theorem Agrees.run_operation (h : s.Agrees) {operation : Operation} (hclear : operation.IsClear) :
    (operation.program.run s).2.Agrees := by
  cases operation with
  | claim target host policy =>
    rw [Operation.program, Program.run_map]
    cases target with
    | block cidr =>
      rw [Target.program, Program.run_map]
      exact h.run_claimBlock hclear
    | free settings catalog words family requested =>
      exact Claim.agrees_run_claimFree h settings catalog words family requested
  | release bound host cidr =>
    rw [Operation.program, Program.run_map]
    exact h.run_releaseBlock hclear bound

theorem Agrees.run_lease (h : s.Agrees) (cidr : Network)
    (edit : Versioned Block → Std.ExtTreeSet Address) :
    ((Action.lease cidr edit).program.run s).2.Agrees := by
  refine ⟨Program.filed_run _ h.filed, fun b => ?_⟩
  cases hs : s.blocks[Block.pathOf cidr]? with
  | none =>
    simp only [Action.program, Program.run_call, answer, getBlock, hs]
    exact h.records_iff b
  | some read =>
    have hpath : ({ read.value with allocated := edit read } : Block).path = Block.pathOf cidr :=
      h.filed.blocks hs
    have hread : s.blocks[({ read.value with allocated := edit read } : Block).path]? = some read :=
      hpath ▸ hs
    simp only [Action.program, Program.run_call, answer, getBlock, hs,
      updateBlock_of_current (v := ⟨{ read.value with allocated := edit read }, read.revision⟩)
        hread rfl, Program.run_done]
    refine (h.records_iff b).trans (Iff.trans ?_ confirms_insert.symm)
    rw [hpath]
    split
    · next hp => simp [Confirms, hp, hs]
    · exact Iff.rfl

/-- Affinity records and owned blocks go together after any whole operations and changes of leases. -/
theorem Agrees.acted (h : s.Agrees) {actions : List Action} (hclear : ∀ a ∈ actions, a.IsClear) :
    (s.acted actions).Agrees := by
  induction actions generalizing s with
  | nil => exact h
  | cons action actions ih =>
    refine ih ?_ fun a ha => hclear a (List.mem_cons_of_mem action ha)
    cases action with
    | operate operation =>
      have hrun := Program.run_map (fun _ => ()) operation.program s
      show (operation.program.map fun _ => ()).run s |>.2.Agrees
      rw [hrun]
      exact h.run_operation (hclear _ List.mem_cons_self)
    | lease cidr edit => exact h.run_lease cidr edit

end Store

theorem Store.Filed.listed_iff_records {s : Store} (h : s.Filed) {host : String} {family : Family}
    {cidr : Network} :
    (∃ v ∈ s.listAffinities ⟨some host, some family⟩, v.value.cidr = cidr) ↔
      cidr.family = family ∧ s.Records ⟨host, cidr⟩ := by
  simp only [h.mem_listAffinities, AffinityFilter.accepts_iff, Option.mem_some_iff, forall_eq']
  constructor
  · rintro ⟨v, ⟨hv, hhost, hfamily⟩, rfl⟩
    have hvalue : (⟨host, v.value.cidr⟩ : Affinity) = v.value := by rw [hhost]
    refine ⟨hfamily.symm, v, ?_, hvalue.symm⟩
    rw [hvalue]
    exact hv
  · rintro ⟨hfamily, v, hv, hvalue⟩
    refine ⟨v, ⟨?_, ?_, ?_⟩, ?_⟩
    · rw [hvalue]
      exact hv
    · rw [hvalue]
    · rw [hvalue]
      exact hfamily.symm
    · rw [hvalue]

theorem Store.Filed.confirms_iff {s : Store} (h : s.Filed) {host : String} {cidr : Network} :
    s.Confirms ⟨host, cidr⟩ ↔ ∃ (p : String) (stored : Versioned Block), s.blocks[p]? = some stored ∧
      stored.value.cidr = cidr ∧ stored.value.affinity = some host := by
  constructor
  · rintro ⟨stored, hstored, hcidr, howner⟩
    exact ⟨_, stored, hstored, hcidr, howner⟩
  · rintro ⟨p, stored, hstored, rfl, howner⟩
    obtain rfl := h.blocks hstored
    exact ⟨stored, hstored, rfl, howner⟩

/-- The listing of a host's blocks after any whole operations and changes of leases: each block that is
recorded as the host's, is of the family and lies inside the pool, if one is given, and each once. -/
theorem listing_exact (actions : List Action) (hclear : ∀ a ∈ actions, a.IsClear) (host : String)
    (family : Family) (pool : Option Network) :
    let s := Store.empty.acted actions
    ∃ listed, (ownedBlocks host family pool).run s = (.ok listed, s) ∧ listed.Nodup ∧
      ∀ cidr, cidr ∈ listed ↔ cidr.family = family ∧
        (∀ outer ∈ pool, ∀ a, cidr.contains a → outer.contains a) ∧
        ∃ (p : String) (stored : Versioned Block), s.blocks[p]? = some stored ∧
          stored.value.cidr = cidr ∧ stored.value.affinity = some host := by
  intro s
  have h : s.Agrees := Store.agrees_empty.acted hclear
  refine ⟨_, rfl, (h.filed.nodup_cidrs host (some family)).filter _, fun cidr => ?_⟩
  rw [List.mem_filter, List.mem_map, h.filed.listed_iff_records, h.records_iff,
    h.filed.confirms_iff, Option.all_eq_true]
  simp only [Network.includes_iff_contains]
  tauto

/-- A host claims a block in vain and gets another, of which an address is leased. Both blocks are
released, and the host claims the first again. Its listing has this block and not the one it gave back,
whose record stays. -/
theorem listing_exact_of_reclaimed :
    let first : Network := ⟨⟨.v4, 0x0A000000, by decide⟩, 26, by decide⟩
    let second : Network := ⟨⟨.v4, 0x0A000040, by decide⟩, 26, by decide⟩
    let pool : Network := ⟨⟨.v4, 0x0A000000, by decide⟩, 25, by decide⟩
    let claim (cidr : Network) (host : String) : Action :=
      .operate (.claim (.block cidr) host ⟨false⟩)
    let actions : List Action :=
      [claim first "left", claim first "right", claim second "right",
        .lease second fun read => read.value.allocated.insert ⟨.v4, 0x0A000041, by decide⟩,
        .operate (.release 3 "left" first), .operate (.release 3 "right" second),
        claim first "right"]
    let s := Store.empty.acted actions
    (∀ a ∈ actions, a.IsClear) ∧
    (∃ listed, (ownedBlocks "right" .v4 (some pool)).run s = (.ok listed, s) ∧ listed.Nodup ∧
      ∀ cidr, cidr ∈ listed ↔ cidr.family = .v4 ∧
        (∀ outer ∈ some pool, ∀ a, cidr.contains a → outer.contains a) ∧
        ∃ (p : String) (stored : Versioned Block), s.blocks[p]? = some stored ∧
          stored.value.cidr = cidr ∧ stored.value.affinity = some "right") ∧
    ((ownedBlocks "right" .v4 (some pool)).run s).1.toOption = some [first] := by
  intro first second pool claim actions s
  have hclear : ∀ a ∈ actions, a.IsClear := by decide +kernel
  exact ⟨hclear, listing_exact actions hclear "right" .v4 (some pool), by decide +kernel⟩

end HostBlocks
