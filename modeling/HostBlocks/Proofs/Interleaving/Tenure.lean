import HostBlocks.Proofs.Interleaving.Deletion
import HostBlocks.Proofs.Interleaving.Exclusion
import HostBlocks.Proofs.Interleaving.Vacancy

/-!
# How long a claim lasts

A host that has claimed a block and does not release it can still lose it. A release that has read an
empty block deletes whatever stands at its path by then, and the block may have been released by
another task and claimed by another host in between. Such a deletion is the only way: releases that
have yet to read the record leave it to its owner, and writing back what was read is refused or has to
do with a block that has leases, which keeps its record. So the block is kept exactly if no deletion
that was pending when the claim returned is carried out.
-/
namespace HostBlocks

def Operation.IsReleaseOf (host path : String) : Operation → Prop
  | .claim _ _ _ => False
  | .release _ host' cidr => host' = host ∧ Block.pathOf cidr = path

instance (operation : Operation) (host path : String) :
    Decidable (operation.IsReleaseOf host path) :=
  match operation with
  | .claim _ _ _ => inferInstanceAs (Decidable False)
  | .release _ host' cidr => inferInstanceAs (Decidable (host' = host ∧ Block.pathOf cidr = path))

namespace Release.Stage

variable {bound : Nat} {host : String} {cidr : Network} {s s' : Store} {stage stage' : Stage}

theorem Knows.blocks_of_ne (h : stage.Knows host cidr s) (hm : Move bound host cidr s stage stage' s')
    {path : String} (hne : path ≠ Block.pathOf cidr) : s'.blocks[path]? = s.blocks[path]? := by
  cases hm with
  | missing | foreign | empty | leased | absent | conflict | vanished => rfl
  | cleaned => rw [Store.blocks_deleteAffinity]
  | deleted => exact Store.getElem?_erase_of_ne hne
  | cleared =>
    obtain ⟨hpath, -⟩ := h
    exact Store.getElem?_insert_of_ne (hpath ▸ hne)

/-- A release that meets a block of another host goes away, unless it is about to delete. -/
theorem Knows.spare_other (h : stage.Knows host cidr s)
    (hm : Move bound host cidr s stage stage' s') {stored : Versioned Block}
    (hs : s.blocks[Block.pathOf cidr]? = some stored) (ho : stored.value.isOwnedByOther host)
    (hstage : stage ≠ .deleting) : s'.blocks = s.blocks ∧ stage' ≠ .deleting := by
  have hmine : ∀ other, s.blocks[Block.pathOf cidr]? = some other →
      other.value.isOwnedByOther host := by
    intro other hother
    cases hs.symm.trans hother
    exact ho
  cases hm with
  | missing | foreign => exact ⟨rfl, nofun⟩
  | empty h' ho' | leased h' ho' => exact absurd (hmine _ h') ho'
  | deleted | absent => exact absurd rfl hstage
  | cleared | conflict | vanished =>
    obtain ⟨-, -, other, hother, -, ho'⟩ := h
    exact absurd (hmine _ hother) ho'
  | cleaned => exact ⟨Store.blocks_deleteAffinity, nofun⟩

end Release.Stage

namespace Task

variable {t : Task} {s : Store} {path host : String} {stored : Versioned Block}

/-- A call of a task leaves the block of another host alone, if the task was not about to delete it. -/
theorem IsOrderly.step_of_owned (h : t.IsOrderly s) (hs : s.blocks[path]? = some stored)
    (howner : stored.value.affinity = some host)
    (hquiet : t.operation.IsReleaseOf host path → t.IsDone) (hnot : ¬t.Deletes path) :
    (t.step s).2.blocks[path]? = some stored ∧ ¬(t.step s).1.Deletes path := by
  cases h with
  | @claim target policy host' stage h =>
    obtain ⟨stage', s', hstep, hmove | ⟨-, rfl, rfl⟩⟩ := step_claiming target policy host' stage s
    · rw [hstep]
      exact ⟨hmove.keeps _ _ hs, not_deletes_claiming⟩
    · rw [hstep]
      exact ⟨hs, not_deletes_claiming⟩
  | @release bound host' cidr stage h =>
    obtain ⟨stage', s', hstep, hmove | ⟨-, rfl, rfl⟩⟩ := step_releasing bound host' cidr stage s
    · by_cases hp : Block.pathOf cidr = path
      · subst hp
        by_cases hh : host' = host
        · subst hh
          rw [step_of_isDone (hquiet ⟨rfl, rfl⟩)]
          exact ⟨hs, hnot⟩
        · have ho : stored.value.isOwnedByOther host' :=
            (Block.isOwnedByOther_iff _ _).2 ⟨host, howner, Ne.symm hh⟩
          have hstage : stage ≠ .deleting := fun hd => hnot (deletes_releasing_iff.2 ⟨hd, rfl⟩)
          obtain ⟨hblocks, hstage'⟩ := h.spare_other hmove hs ho hstage
          rw [hstep, hblocks, deletes_releasing_iff]
          exact ⟨hs, fun hd => hstage' hd.1⟩
      · rw [hstep, h.blocks_of_ne hmove (Ne.symm hp), deletes_releasing_iff]
        exact ⟨hs, fun hd => hp hd.2⟩
    · rw [hstep]
      exact ⟨hs, hnot⟩

theorem IsOrderly.owned_of_claimed (h : t.IsOrderly s) {cidr : Network} (hnot : ¬t.HasClaimed cidr)
    (hc : (t.step s).1.HasClaimed cidr) :
    ∃ stored, (t.step s).2.blocks[Block.pathOf cidr]? = some stored ∧
      stored.value.affinity = some t.operation.host := by
  cases h with
  | @claim target policy host stage h =>
    obtain ⟨stage', s', hstep, hmove | ⟨-, rfl, rfl⟩⟩ := step_claiming target policy host stage s
    · rw [hstep] at hc ⊢
      exact hmove.owned h (hasClaimed_claiming_iff.1 hc)
    · rw [hstep] at hc
      exact absurd hc hnot
  | @release bound host cidr' stage h =>
    obtain ⟨stage', s', hstep, -⟩ := step_releasing bound host cidr' stage s
    rw [hstep] at hc
    exact absurd hc not_hasClaimed_releasing

end Task

namespace System

variable (sys : System) (path host : String)

def Owned : Prop :=
  ∃ stored, sys.store.blocks[path]? = some stored ∧ stored.value.affinity = some host

def Quiet : Prop := ∀ t ∈ sys.tasks, t.operation.IsReleaseOf host path → t.IsDone

instance : Decidable (sys.Owned path host) :=
  inferInstanceAs (Decidable (∃ stored ∈ sys.store.blocks[path]?, stored.value.affinity = some host))

instance : Decidable (sys.Quiet path host) :=
  inferInstanceAs (Decidable (∀ t ∈ sys.tasks, t.operation.IsReleaseOf host path → t.IsDone))

variable {sys path host}

theorem quiet_next (h : sys.Quiet path host) {e : Event}
    (hstart : ∀ operation, e = .start operation → ¬operation.IsReleaseOf host path) :
    (sys.next e).Quiet path host := by
  cases e with
  | start operation =>
    intro t ht hrelease
    rcases List.mem_append.1 ht with ht | ht
    · exact h t ht hrelease
    · rw [List.mem_singleton.1 ht] at hrelease
      exact absurd hrelease (hstart operation rfl)
  | step i =>
    cases hi : sys.tasks[i]? with
    | none =>
      rw [next_step_of_none hi]
      exact h
    | some t =>
      rw [next_step_of_some hi]
      intro u hu hrelease
      rcases List.mem_or_eq_of_mem_set hu with hu | rfl
      · exact h u hu hrelease
      · have hdone : t.IsDone := h t (List.mem_of_getElem? hi) hrelease
        rw [Task.step_of_isDone hdone]
        exact hdone
  | serve request => exact h

theorem quiet_run (h : sys.Quiet path host) (events : List Event)
    (hstart : ∀ operation, .start operation ∈ events → ¬operation.IsReleaseOf host path) :
    (sys.run events).Quiet path host := by
  induction events generalizing sys with
  | nil => exact h
  | cons e events ih =>
    apply ih
    · exact quiet_next h fun operation he => hstart operation (he ▸ List.mem_cons_self)
    · exact fun operation he => hstart operation (List.mem_cons_of_mem e he)

theorem not_owned_of_deletes {i : Nat} (h : sys.Deletes path i) :
    ¬(sys.next (.step i)).Owned path host := by
  rintro ⟨stored, hstored, -⟩
  cases h.next.symm.trans hstored

/-- While no pending deletion is carried out, the block is kept and no other deletion comes up. -/
theorem next_of_owned (hkept : Discipline.orderly.Kept sys) (hquiet : sys.Quiet path host)
    (howned : sys.Owned path host) {e : Event} (he : e.IsOrderly)
    (hnot : ∀ i, sys.Deletes path i → e ≠ .step i) :
    (sys.next e).Owned path host ∧ ∀ i, (sys.next e).Deletes path i ↔ sys.Deletes path i := by
  obtain ⟨stored, hstored, howner⟩ := howned
  cases e with
  | start operation =>
    refine ⟨⟨stored, hstored, howner⟩, fun i => ?_⟩
    constructor
    · rintro ⟨t, ht, hdeletes⟩
      rw [next, List.getElem?_append] at ht
      split at ht
      · exact ⟨t, ht, hdeletes⟩
      · rw [List.mem_singleton.1 (List.mem_of_getElem? ht)] at hdeletes
        exact absurd hdeletes (Task.not_deletes_of operation)
    · rintro ⟨t, ht, hdeletes⟩
      refine ⟨t, ?_, hdeletes⟩
      rw [next, List.getElem?_append_left (List.getElem?_eq_some_iff.1 ht).1]
      exact ht
  | step i =>
    cases hi : sys.tasks[i]? with
    | none =>
      rw [next_step_of_none hi]
      exact ⟨⟨stored, hstored, howner⟩, fun _ => Iff.rfl⟩
    | some t =>
      have ht : ¬t.Deletes path := fun hd => hnot i ⟨t, hi, hd⟩ rfl
      have hmem := List.mem_of_getElem? hi
      obtain ⟨hstored', ht'⟩ :=
        (hkept.2 t hmem).step_of_owned hstored howner (hquiet t hmem) ht
      rw [next_step_of_some hi]
      refine ⟨⟨stored, hstored', howner⟩, fun j => ?_⟩
      by_cases hj : i = j
      · subst hj
        have hset := List.getElem?_set_self (a := (t.step sys.store).1)
          (List.getElem?_eq_some_iff.1 hi).1
        simp [Deletes, hset, hi, ht, ht']
      · simp only [Deletes, List.getElem?_set_ne hj]
  | serve request =>
    have hblocks : (sys.store.answer request).2.blocks = sys.store.blocks :=
      Store.blocks_of_change_none he
    refine ⟨⟨stored, ?_, howner⟩, fun _ => Iff.rfl⟩
    simp only [next, hblocks]
    exact hstored

theorem owned_iff_no_deletion (hkept : Discipline.orderly.Kept sys) (hquiet : sys.Quiet path host)
    (howned : sys.Owned path host) (events : List Event) (he : ∀ e ∈ events, e.IsOrderly)
    (hstart : ∀ operation, .start operation ∈ events → ¬operation.IsReleaseOf host path) :
    (∀ k ≤ events.length, (sys.run (events.take k)).Owned path host) ↔
      ∀ i, sys.Deletes path i → .step i ∉ events := by
  induction events generalizing sys with
  | nil => simp [howned]
  | cons e events ih =>
    by_cases hd : ∃ i, sys.Deletes path i ∧ e = .step i
    · obtain ⟨i, hdeletes, rfl⟩ := hd
      constructor
      · intro h
        exact absurd (h 1 (by simp)) (not_owned_of_deletes hdeletes)
      · intro h
        exact absurd List.mem_cons_self (h i hdeletes)
    · have hnot : ∀ i, sys.Deletes path i → e ≠ .step i := fun i hi heq => hd ⟨i, hi, heq⟩
      obtain ⟨howned', hdeletes⟩ :=
        next_of_owned hkept hquiet howned (he e List.mem_cons_self) hnot
      have hquiet' : (sys.next e).Quiet path host :=
        quiet_next hquiet fun operation heq => hstart operation (heq ▸ List.mem_cons_self)
      have hlater := ih (hkept.next (he e List.mem_cons_self).admits) hquiet' howned'
        (fun e' he' => he e' (List.mem_cons_of_mem e he'))
        (fun operation he' => hstart operation (List.mem_cons_of_mem e he'))
      constructor
      · intro h i hi
        rw [List.mem_cons, not_or]
        refine ⟨(hnot i hi).symm, hlater.1 (fun k hk => ?_) i ((hdeletes i).2 hi)⟩
        exact h (k + 1) (Nat.succ_le_succ hk)
      · intro h k hk
        cases k with
        | zero => exact howned
        | succ k =>
          refine hlater.2 (fun i hi => ?_) k (Nat.le_of_succ_le_succ hk)
          exact fun hmem => h i ((hdeletes i).1 hi) (List.mem_cons_of_mem e hmem)

/-- At the call by which a task returns that it claimed a block, its host owns the block. -/
theorem owned_of_claimed (hkept : Discipline.orderly.Kept sys) {i : Nat} {cidr : Network}
    {operation : Operation} (hop : sys.tasks[i]?.map Task.operation = some operation)
    (hnot : ∀ t ∈ sys.tasks[i]?, ¬t.HasClaimed cidr)
    (hclaimed : ∃ t ∈ (sys.next (.step i)).tasks[i]?, t.HasClaimed cidr) :
    (sys.next (.step i)).Owned (Block.pathOf cidr) operation.host := by
  obtain ⟨t, ht, rfl⟩ := Option.map_eq_some_iff.1 hop
  obtain ⟨t', ht', hc⟩ := hclaimed
  have hi := (List.getElem?_eq_some_iff.1 ht).1
  rw [next_step_of_some ht] at ht' ⊢
  rw [Option.mem_def, List.getElem?_set_self hi, Option.some.injEq] at ht'
  subst ht'
  exact (hkept.2 t (List.mem_of_getElem? ht)).owned_of_claimed (hnot t ht) hc

/-- A host that claims a block while it neither releases it nor starts to owns the block from the
return of the claim on, exactly if none of the deletions that were pending at the return is carried
out. -/
theorem claim_lasts_iff (history : List Request) (before during after : List Event) (target : Target)
    (host : String) (policy : Policy) (cidr : Network)
    (horderly : ∀ e ∈ before ++ .start (.claim target host policy) :: during ++ after, e.IsOrderly) :
    let started := (System.of (Store.empty.after history)).run before
    let pending := started.run (.start (.claim target host policy) :: during)
    let returned := pending.next (.step started.tasks.length)
    started.Quiet (Block.pathOf cidr) host →
    (∀ operation, .start operation ∈ during ++ after →
      ¬operation.IsReleaseOf host (Block.pathOf cidr)) →
    (∀ t ∈ pending.tasks[started.tasks.length]?, ¬t.HasClaimed cidr) →
    (∃ t ∈ returned.tasks[started.tasks.length]?, t.HasClaimed cidr) →
    ((∀ k ≤ after.length, (returned.run (after.take k)).Owned (Block.pathOf cidr) host) ↔
      ∀ i, returned.Deletes (Block.pathOf cidr) i → .step i ∉ after) := by
  intro started pending returned hquiet hstart hnot hclaimed
  have hstarted : Discipline.orderly.Kept started :=
    (Discipline.kept_of (Store.filed_empty.after history)).run before fun e he =>
      (horderly e (List.mem_append_left after (List.mem_append_left _ he))).admits
  have hkept : Discipline.orderly.Kept pending :=
    hstarted.run _ fun e he =>
      (horderly e (List.mem_append_left after (List.mem_append_right before he))).admits
  have hpending : pending.Quiet (Block.pathOf cidr) host := by
    refine quiet_run hquiet _ fun operation hmem => ?_
    rcases List.mem_cons.1 hmem with heq | hmem
    · cases heq
      exact id
    · exact hstart operation (List.mem_append_left after hmem)
  have hop : pending.tasks[started.tasks.length]?.map Task.operation =
      some (.claim target host policy) := by
    have hlast : (started.next (.start (.claim target host policy))).tasks[started.tasks.length]? =
        some (.of (.claim target host policy)) := List.getElem?_concat_length
    have hrun : pending.tasks[started.tasks.length]?.map Task.operation =
        (started.next (.start (.claim target host policy))).tasks[started.tasks.length]?.map
          Task.operation :=
      operation_run during (List.getElem?_eq_some_iff.1 hlast).1
    rw [hrun, hlast]
    rfl
  apply owned_iff_no_deletion
  · exact hkept.next trivial
  · exact quiet_next hpending nofun
  · exact owned_of_claimed hkept hop hnot hclaimed
  · exact fun e he => horderly e (List.mem_append_right _ he)
  · exact fun operation hmem => hstart operation (List.mem_append_right _ hmem)

theorem claim_lasts_after_release :
    let cidr : Network := ⟨⟨.v4, 0x0A000000, by decide⟩, 26, by decide⟩
    let history : List Request := [.createBlock (.claimed cidr "first" false)]
    let before : List Event := [.start (.release 3 "first" cidr), .step 0, .step 0]
    let during : List Event := [.step 1]
    let after : List Event := [.step 0]
    let claim : Operation := .claim (.block cidr) "second" ⟨false⟩
    let started := (System.of (Store.empty.after history)).run before
    let pending := started.run (.start claim :: during)
    let returned := pending.next (.step started.tasks.length)
    ((∀ e ∈ before ++ .start claim :: during ++ after, e.IsOrderly) ∧
      started.Quiet (Block.pathOf cidr) "second" ∧
      (∀ operation, .start operation ∈ during ++ after →
        ¬operation.IsReleaseOf "second" (Block.pathOf cidr)) ∧
      (∀ t ∈ pending.tasks[started.tasks.length]?, ¬t.HasClaimed cidr) ∧
      ∃ t ∈ returned.tasks[started.tasks.length]?, t.HasClaimed cidr) ∧
    ((∀ k ≤ after.length, (returned.run (after.take k)).Owned (Block.pathOf cidr) "second") ↔
      ∀ i, returned.Deletes (Block.pathOf cidr) i → .step i ∉ after) := by
  intro cidr history before during after claim started pending returned
  have horderly : ∀ e ∈ before ++ .start claim :: during ++ after, e.IsOrderly := by
    decide +kernel
  have hquiet : started.Quiet (Block.pathOf cidr) "second" := by decide +kernel
  have hstart : ∀ operation, .start operation ∈ during ++ after →
      ¬operation.IsReleaseOf "second" (Block.pathOf cidr) := by simp [during, after]
  have hnot : ∀ t ∈ pending.tasks[started.tasks.length]?, ¬t.HasClaimed cidr := by decide +kernel
  have hclaimed : ∃ t ∈ returned.tasks[started.tasks.length]?, t.HasClaimed cidr := by
    decide +kernel
  exact ⟨⟨horderly, hquiet, hstart, hnot, hclaimed⟩,
    claim_lasts_iff history before during after (.block cidr) "second" ⟨false⟩ cidr horderly
      hquiet hstart hnot hclaimed⟩

/-- Two releases of a host have read its empty block. One of them deletes it, another host claims it,
and the second release deletes the record of the new owner. A third host can claim the block then. -/
theorem claim_lost_to_other_release :
    let cidr : Network := ⟨⟨.v4, 0x0A000000, by decide⟩, 26, by decide⟩
    let history : List Request := [.createBlock (.claimed cidr "first" false)]
    let before : List Event :=
      [.start (.release 3 "first" cidr), .start (.release 3 "first" cidr), .step 0, .step 1, .step 0]
    let claim : Operation := .claim (.block cidr) "second" ⟨false⟩
    let after : List Event :=
      [.step 1, .start (.claim (.block cidr) "third" ⟨false⟩), .step 3, .step 3]
    let started := (System.of (Store.empty.after history)).run before
    let returned := started.run [.start claim, .step 2, .step 2]
    let last := returned.run after
    (∀ e ∈ before ++ [.start claim, .step 2, .step 2] ++ after, e.IsOrderly) ∧
      (∀ t ∈ last.tasks, ¬t.operation.IsReleaseOf "second" (Block.pathOf cidr)) ∧
      (∃ t ∈ returned.tasks[2]?, t.operation.host = "second" ∧ t.HasClaimed cidr) ∧
      returned.Owned (Block.pathOf cidr) "second" ∧
      ¬last.Owned (Block.pathOf cidr) "second" ∧ last.Owned (Block.pathOf cidr) "third" := by
  intro cidr history before claim after started returned last
  refine ⟨?_, ?_, ?_, ?_, ?_, ?_⟩
  all_goals decide +kernel

end System

end HostBlocks
