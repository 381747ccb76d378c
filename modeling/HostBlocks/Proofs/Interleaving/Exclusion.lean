import HostBlocks.Proofs.History.Changes
import HostBlocks.Proofs.Interleaving.System

/-!
# Claims exclude each other

As long as claims are all that changes block records, a record that stands stays as it is: claims only
add records, each where there is none. So whatever a claim has found out about a record remains true
while others go on, and a host that has been told that it owns a block still owns it at any later
point. For the same reason a claim that has passed over every block has passed over records that all
stand when it gives up.
-/
namespace HostBlocks

/-- A start of a claim, a call of a task, or another call that leaves block records alone. -/
def Event.Claims : Event → Prop
  | .start operation => operation.IsClaim ∧ operation.IsClear
  | .step _ => True
  | .serve request => request.change = none

instance : DecidablePred Event.Claims
  | .start operation => inferInstanceAs (Decidable (operation.IsClaim ∧ operation.IsClear))
  | .step _ => inferInstanceAs (Decidable True)
  | .serve request => inferInstanceAs (Decidable (request.change = none))

def Store.Keeps (s s' : Store) : Prop :=
  ∀ (p : String) (stored : Versioned Block), s.blocks[p]? = some stored → s'.blocks[p]? = some stored

theorem Store.keeps_of_blocks_eq {s s' : Store} (h : s'.blocks = s.blocks) : s.Keeps s' := by
  intro p stored hs
  rw [h]
  exact hs

theorem Store.keeps_insert {s : Store} {path : String} {created : Versioned Block}
    (h : s.blocks[path]? = none) : s.Keeps { s with blocks := s.blocks.insert path created } := by
  intro p stored hs
  rw [getElem?_insert_of_ne]
  · exact hs
  · rintro rfl
    cases h.symm.trans hs

theorem Claim.Move.keeps {host : String} {policy : Policy} {s s' : Store}
    {stage stage' : Claim.Stage} (h : Claim.Move host policy s stage stage' s') : s.Keeps s' := by
  cases h with
  | taken | free | present | own | lost | gone => exact Store.keeps_of_blocks_eq rfl
  | recorded => exact Store.keeps_of_blocks_eq Store.blocks_createAffinity
  | withdrawn => exact Store.keeps_of_blocks_eq Store.blocks_deleteAffinity
  | created hs => exact Store.keeps_insert hs

/-- At the call by which a claim succeeds its host owns the block. -/
theorem Claim.Move.owned {host : String} {policy : Policy} {s s' : Store}
    {stage stage' : Claim.Stage} (h : Claim.Move host policy s stage stage' s')
    (hclear : stage.IsClear) {cidr : Network} (hc : stage' = .returned (.ok cidr)) :
    ∃ stored, s'.blocks[Block.pathOf cidr]? = some stored ∧ stored.value.affinity = some host := by
  cases h with
  | @taken _ _ rest => cases rest <;> cases hc
  | free | recorded | present | lost | gone | withdrawn => cases hc
  | @created cidr' hs =>
    cases hc
    have hclear : cidr.trunc = cidr := hclear
    refine ⟨⟨.claimed cidr host policy.strictAffinity, .initial⟩, ?_, rfl⟩
    rw [hclear]
    exact Std.ExtTreeMap.getElem?_insert_self
  | own hs ho =>
    cases hc
    exact ⟨_, hs, by simpa [Block.isOwnedBy] using ho⟩

/-- Every block of the searched pools has a record, but for networks that are `left` to look at. -/
def Target.Searched (s : Store) (left : List Network) : Target → Prop
  | block _ => False
  | free settings catalog _ family requested =>
    ∃ pools, Claim.pools catalog family requested = .ok pools ∧
      ∀ pool ∈ pools, ∀ cidr, Claim.IsBlockOf settings pool cidr →
        cidr ∈ left ∨ ∃ stored, s.blocks[Block.pathOf cidr]? = some stored

theorem Target.Searched.keeps {target : Target} {s s' : Store} {left : List Network}
    (h : target.Searched s left) (hs : s.Keeps s') : target.Searched s' left := by
  cases target with
  | block cidr => exact h
  | free settings catalog words family requested =>
    obtain ⟨pools, hpools, hblocks⟩ := h
    refine ⟨pools, hpools, fun pool hpool cidr hcidr => ?_⟩
    rcases hblocks pool hpool cidr hcidr with hleft | ⟨stored, hstored⟩
    · exact Or.inl hleft
    · exact Or.inr ⟨stored, hs _ _ hstored⟩

theorem Target.Searched.pass {target : Target} {s : Store} {cidr : Network} {left : List Network}
    {stored : Versioned Block} (h : target.Searched s (cidr :: left))
    (hs : s.blocks[Block.pathOf cidr]? = some stored) : target.Searched s left := by
  cases target with
  | block cidr => exact h
  | free settings catalog words family requested =>
    obtain ⟨pools, hpools, hblocks⟩ := h
    refine ⟨pools, hpools, fun pool hpool c hc => ?_⟩
    rcases hblocks pool hpool c hc with hleft | hstored
    · rcases List.mem_cons.1 hleft with rfl | hleft
      · exact Or.inr ⟨stored, hs⟩
      · exact Or.inl hleft
    · exact Or.inr hstored

namespace Claim.Stage

def Knows (target : Target) (host : String) (s : Store) : Stage → Prop
  | probing _ cidr rest => target.Searched s (cidr :: rest)
  | returned (.ok cidr) =>
    ∃ stored, s.blocks[Block.pathOf cidr]? = some stored ∧ stored.value.affinity = some host
  | returned (.error e) => ∀ family, e = .noFreeBlocks family → target.Searched s []
  | _ => True

variable {target : Target} {host : String} {policy : Policy} {s s' : Store} {stage stage' : Stage}

theorem Knows.keeps (h : stage.Knows target host s) (hs : s.Keeps s') :
    stage.Knows target host s' := by
  cases stage with
  | probing family cidr rest => exact Target.Searched.keeps h hs
  | recording | creating | rereading | withdrawing => trivial
  | returned outcome =>
    cases outcome with
    | ok cidr =>
      obtain ⟨stored, hstored, howner⟩ := h
      exact ⟨stored, hs _ _ hstored, howner⟩
    | error e => exact fun family he => (h family he).keeps hs

theorem knows_search {family : Family} {left : List Network} (h : target.Searched s left) :
    (search family left).Knows target host s := by
  cases left with
  | nil => exact fun _ _ => h
  | cons cidr rest => exact h

theorem Knows.move (h : stage.Knows target host s) (hclear : stage.IsClear)
    (hm : Move host policy s stage stage' s') : stage'.Knows target host s' := by
  have howned : ∀ cidr, stage' = .returned (.ok cidr) → stage'.Knows target host s' := by
    rintro cidr rfl
    exact hm.owned hclear rfl
  cases hm with
  | taken hs => exact knows_search (Target.Searched.pass h hs)
  | free | recorded | present | lost => trivial
  | created | own => exact howned _ rfl
  | gone | withdrawn =>
    intro family he
    cases he

end Claim.Stage

theorem Target.Starts.knows {target : Target} {host : String} {policy : Policy}
    {stage : Claim.Stage} (h : target.Starts host policy stage) (s : Store) :
    stage.Knows target host s := by
  cases h with
  | block cidr => trivial
  | refused hne => exact fun f hf => absurd hf (hne f)
  | @search settings catalog words family requested pools hpools =>
    apply Claim.Stage.knows_search
    refine ⟨pools, hpools, fun pool hpool cidr hcidr => Or.inl ?_⟩
    exact (Claim.mem_candidates_iff settings words pools cidr).2 ⟨pool, hpool, hcidr⟩

namespace Task

def IsClaiming (t : Task) (s : Store) : Prop :=
  ∃ target host policy stage, t = claiming target policy host stage ∧
    stage.IsClear ∧ stage.Knows target host s

variable {t : Task} {s : Store}

theorem isClaiming_of {operation : Operation} (hclaim : operation.IsClaim)
    (hclear : operation.IsClear) (s : Store) : (of operation).IsClaiming s := by
  cases operation with
  | release bound host cidr => exact hclaim.elim
  | claim target host policy =>
    obtain ⟨stage, hstarts, hof⟩ := of_claim target policy host
    exact ⟨target, host, policy, stage, hof, hstarts.isClear hclear, hstarts.knows s⟩

theorem IsClaiming.step (h : t.IsClaiming s) :
    (t.step s).1.IsClaiming (t.step s).2 ∧ s.Keeps (t.step s).2 := by
  obtain ⟨target, host, policy, stage, rfl, hclear, hknows⟩ := h
  obtain ⟨stage', s', hstep, hmove | ⟨-, rfl, rfl⟩⟩ := step_claiming target policy host stage s
  · rw [hstep]
    exact ⟨⟨target, host, policy, stage', rfl, hclear.move hmove, hknows.move hclear hmove⟩,
      hmove.keeps⟩
  · rw [hstep]
    exact ⟨⟨target, host, policy, _, rfl, hclear, hknows⟩, Store.keeps_of_blocks_eq rfl⟩

theorem IsClaiming.owned (h : t.IsClaiming s) {cidr : Network} (hc : t.HasClaimed cidr) :
    ∃ stored, s.blocks[Block.pathOf cidr]? = some stored ∧
      stored.value.affinity = some t.operation.host := by
  obtain ⟨target, host, policy, stage, rfl, -, hknows⟩ := h
  rw [hasClaimed_claiming_iff] at hc
  subst hc
  exact hknows

theorem IsClaiming.searched (h : t.IsClaiming s) {target : Target} {host : String} {policy : Policy}
    {family : Family} (ht : t.operation = .claim target host policy)
    (hnone : t.program = .done (.error (.noFreeBlocks family))) : target.Searched s [] := by
  obtain ⟨target, host, policy, stage, rfl, -, hknows⟩ := h
  cases ht
  obtain ⟨result, rfl, hresult⟩ := claiming_eq_done_iff.1 hnone
  cases result with
  | ok cidr => cases hresult
  | error e =>
    cases hresult
    exact hknows family rfl

end Task

/-- Claims put up with added records and with nothing else. -/
def Discipline.claims : Discipline where
  sound _ := True
  moves := Store.Keeps
  holds := Task.IsClaiming
  sound_of_moves _ _ := trivial
  stable _ hs := fun ⟨target, host, policy, stage, ht, hclear, hknows⟩ =>
    ⟨target, host, policy, stage, ht, hclear, hknows.keeps hs⟩
  step _ h := h.step

theorem Event.Claims.admits {e : Event} (h : e.Claims) : Discipline.claims.Admits e := by
  cases e with
  | start operation => exact fun s _ => Task.isClaiming_of h.1 h.2 s
  | step i => trivial
  | serve request => exact fun s _ => Store.keeps_of_blocks_eq (Store.blocks_of_change_none h)

/-- However claims interleave, a claim that has succeeded leaves its host the owner of the block from
then on, so two hosts never succeed on one path; and a claim finds no free block only if every block of
every pool that it searched has a record. -/
theorem System.claims_exclude (s : Store) (events : List Event) (h : ∀ e ∈ events, e.Claims) :
    let now := (System.of s).run events
    (∀ t ∈ now.tasks, ∀ cidr, t.HasClaimed cidr →
      ∃ stored, now.store.blocks[Block.pathOf cidr]? = some stored ∧
        stored.value.affinity = some t.operation.host) ∧
    (∀ t ∈ now.tasks, ∀ t' ∈ now.tasks, ∀ cidr cidr', t.HasClaimed cidr → t'.HasClaimed cidr' →
      Block.pathOf cidr = Block.pathOf cidr' → t.operation.host = t'.operation.host) ∧
    ∀ t ∈ now.tasks, ∀ settings catalog words family requested host policy f,
      t.operation = .claim (.free settings catalog words family requested) host policy →
      t.program = .done (.error (.noFreeBlocks f)) →
      ∃ pools, Claim.pools catalog family requested = .ok pools ∧
        ∀ pool ∈ pools, ∀ cidr, Claim.IsBlockOf settings pool cidr →
          ∃ stored, now.store.blocks[Block.pathOf cidr]? = some stored := by
  intro now
  have hkept : Discipline.claims.Kept now :=
    (Discipline.kept_of trivial).run events fun e he => (h e he).admits
  have howned : ∀ t ∈ now.tasks, ∀ cidr, t.HasClaimed cidr →
      ∃ stored, now.store.blocks[Block.pathOf cidr]? = some stored ∧
        stored.value.affinity = some t.operation.host :=
    fun t ht cidr hc => (hkept.2 t ht).owned hc
  refine ⟨howned, ?_, ?_⟩
  · intro t ht t' ht' cidr cidr' hc hc' hpath
    obtain ⟨stored, hstored, howner⟩ := howned t ht cidr hc
    obtain ⟨stored', hstored', howner'⟩ := howned t' ht' cidr' hc'
    rw [hpath, hstored'] at hstored
    cases hstored
    rw [howner'] at howner
    exact (Option.some.inj howner).symm
  · intro t ht settings catalog words family requested host policy f hop hnone
    obtain ⟨pools, hpools, hblocks⟩ := (hkept.2 t ht).searched hop hnone
    refine ⟨pools, hpools, fun pool hpool cidr hcidr => ?_⟩
    rcases hblocks pool hpool cidr hcidr with hleft | hstored
    · cases hleft
    · exact hstored

/-- A search finds the only block free and loses it to a claim of that block. -/
theorem System.claims_exclude_of_race :
    let cidr : Network := ⟨⟨.v4, 0x0A000000, by decide⟩, 26, by decide⟩
    let target : Target := .free .standard (.ok [⟨cidr, false⟩]) (fun _ => .cycle []) .v4 none
    let events : List Event :=
      [.start (.claim (.block cidr) "first" ⟨false⟩), .start (.claim target "second" ⟨false⟩),
        .step 1, .step 1, .step 0, .step 0, .step 1, .step 1, .step 1]
    (∀ e ∈ events, e.Claims) ∧
      ∃ stored, ((System.of .empty).run events).store.blocks[Block.pathOf cidr]? = some stored ∧
        stored.value.affinity = some "first" := by
  intro cidr target events
  have hclaims : ∀ e ∈ events, e.Claims := by decide +kernel
  have hfirst : ∃ t ∈ ((System.of .empty).run events).tasks,
      t.operation.host = "first" ∧ t.HasClaimed cidr := by decide +kernel
  obtain ⟨t, ht, hhost, hc⟩ := hfirst
  obtain ⟨howned, -⟩ := System.claims_exclude .empty events hclaims
  obtain ⟨stored, hstored, howner⟩ := howned t ht cidr hc
  exact ⟨hclaims, stored, hstored, howner.trans (congrArg some hhost)⟩
end HostBlocks
