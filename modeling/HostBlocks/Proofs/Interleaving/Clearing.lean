import HostBlocks.Proofs.History.Updates
import HostBlocks.Proofs.Interleaving.Contents
import HostBlocks.Proofs.Interleaving.Deletion

/-!
# What a release clears

A release that has read leases writes the record back without an owner, at the revision of the read.
Others may write in between, and as long as none of them deletes the record, and its numbers do not come
round, its revision tells the release about every one of these writes. So an update that goes through replaces what was read, and
nothing that others have recorded is lost with it.
-/
namespace HostBlocks

namespace Lineage

variable {first last : Option (Versioned Block)} {changes : List Change}

/-- What a record and every change of it have, the record has at the end. -/
theorem exists_value {P : Block → Prop} (h : Lineage first changes last)
    (hfirst : ∃ record ∈ first, P record.value) (hchanges : ∀ c ∈ changes, ∃ b ∈ c.value, P b) :
    ∃ record ∈ last, P record.value := by
  induction h with
  | nil => exact hfirst
  | @cons _ next _ c _ hc _ ih =>
    obtain ⟨hnext, hrest⟩ := List.forall_mem_cons.1 hchanges
    refine ih ?_ hrest
    obtain ⟨b, hb, hPb⟩ := hnext
    have hvalue : next.map Versioned.value = some b := hc.map_value.trans hb
    obtain ⟨record, hrecord, rfl⟩ := Option.map_eq_some_iff.1 hvalue
    exact ⟨record, hrecord, hPb⟩

end Lineage

/-- A lease that an update records lasts as long as every later change of the record has it. -/
theorem Store.lease_lasts {s : Store} {v : Versioned Block} (hok : (s.updateBlock v).1.isOk)
    {a : Address} (ha : a ∈ v.value.allocated) {calls : List Request}
    (hkept : ∀ c ∈ (s.updateBlock v).2.changes v.value.path calls, ∃ b ∈ c.value, a ∈ b.allocated) :
    ∃ record ∈ ((s.updateBlock v).2.after calls).blocks[v.value.path]?,
      a ∈ record.value.allocated := by
  obtain ⟨stored, hstored, hrevision⟩ := (s.updateBlock_isOk_iff v).1 hok
  refine ((s.updateBlock v).2.lineage v.value.path calls).exists_value ?_ hkept
  rw [updateBlock_of_current hstored hrevision.symm]
  exact ⟨_, Std.ExtTreeMap.getElem?_insert_self, ha⟩

namespace Event

def served : Event → Option Request
  | start _ => none
  | step _ => none
  | serve request => some request

def requests (events : List Event) : List Request := events.filterMap served

theorem requests_append (front back : List Event) :
    requests (front ++ back) = requests front ++ requests back :=
  List.filterMap_append

end Event

namespace Release

variable {bound : Nat} {host : String} {cidr : Network} {s : Store} {events : List Event}
variable {stage : Stage} {released : Released} {read : Versioned Block}
variable {left : Nat}

/-- A release has written nothing at these places. -/
def Stage.IsEarly : Stage → Prop
  | reading _ => True
  | deleting => True
  | clearing _ _ => True
  | cleaning _ => False
  | returned _ => False

section

variable {stage' : Stage} {s' : Store} (h : Move bound host cidr s stage stage' s')

include h

theorem Move.of_isEarly (hearly : stage'.IsEarly) : stage.IsEarly ∧ s' = s := by
  cases h with
  | empty | leased | conflict => exact ⟨trivial, rfl⟩
  | missing | foreign | deleted | absent | cleared | vanished | cleaned => exact hearly.elim

/-- What is to be written back is a record with leases that no other host owns, as it was read. -/
theorem Move.read_of_clearing (hstage : stage' = .clearing read left) :
    stage = .reading left ∧ s' = s ∧ s.blocks[Block.pathOf cidr]? = some read ∧
      ¬read.value.isOwnedByOther host ∧ ¬read.value.isEmpty := by
  cases h with
  | leased hs ho he =>
    cases hstage
    exact ⟨rfl, rfl, hs, ho, he⟩
  | @conflict _ _ left' => cases left' <;> cases hstage
  | missing | foreign | empty | deleted | absent | cleared | vanished | cleaned => cases hstage

/-- The owner goes with an update of a record that is at the revision of the read. -/
theorem Move.update_of_cleared (hstage : stage' = .cleaning .affinityCleared) :
    ∃ read stood left, stage = .clearing read left ∧ s.blocks[read.value.path]? = some stood ∧
      read.revision = stood.revision ∧ s' = { s with
        blocks := s.blocks.insert read.value.path ⟨read.value.released, read.revision.next⟩ } := by
  cases h with
  | cleared hs hr => exact ⟨_, _, _, rfl, hs, hr, rfl⟩
  | @conflict _ _ left' => cases left' <;> cases hstage
  | missing | foreign | empty | leased | deleted | absent | vanished | cleaned => cases hstage

/-- A release returns what it did to the record once the affinity record is gone. -/
theorem Move.cleaning_of_returned (hstage : stage' = .returned (.ok released)) :
    stage = .cleaning released.disposition := by
  cases h with
  | cleaned =>
    cases hstage
    rfl
  | @conflict _ _ left' => cases left' <;> cases hstage
  | missing | foreign | empty | leased | deleted | absent | vanished | cleared => cases hstage

end

/-- Until a release has written, only the calls of other callers change the store. -/
theorem Follows.store_eq (h : Follows bound host cidr s events stage) (hearly : stage.IsEarly)
    {pre post : List Event} (hevents : events = pre ++ post) :
    (among bound host cidr s events).store =
      (among bound host cidr s pre).store.after (Event.requests post) := by
  induction h generalizing post with
  | start =>
    obtain ⟨rfl, rfl⟩ := List.append_eq_nil_iff.1 hevents.symm
    rfl
  | @move events stage stage' _ hmove _ ih =>
    cases post using List.reverseRecOn with
    | nil =>
      rw [hevents, List.append_nil]
      rfl
    | append_singleton post e =>
      rw [← List.append_assoc] at hevents
      obtain ⟨hfront, hlast⟩ := List.append_inj' hevents rfl
      cases hlast
      obtain ⟨hearly', hsame⟩ := hmove.of_isEarly hearly
      rw [hsame, ih hearly' hfront, Event.requests_append]
      exact congrArg _ (List.append_nil _).symm
  | rest => exact hearly.elim
  | @serve events _ _ r ih =>
    cases post using List.reverseRecOn with
    | nil =>
      rw [hevents, List.append_nil]
      rfl
    | append_singleton post e =>
      rw [← List.append_assoc] at hevents
      obtain ⟨hfront, hlast⟩ := List.append_inj' hevents rfl
      cases hlast
      rw [Event.requests_append, Store.after_append, ← ih hearly hfront, among_concat]
      rfl

/-- A release that is about to write back what it has read has read it with its latest call. -/
theorem Follows.read_of_clearing (h : Follows bound host cidr s events (.clearing read left)) :
    ∃ (front : List Event) (since : List Request), events = front ++ .step 0 :: since.map .serve ∧
      Follows bound host cidr s front (.reading left) ∧
      (among bound host cidr s front).store.blocks[Block.pathOf cidr]? = some read ∧
      ¬read.value.isOwnedByOther host ∧ ¬read.value.isEmpty ∧
      (among bound host cidr s events).store =
        (among bound host cidr s front).store.after since := by
  rcases h.exists_latest with hfirst | ⟨front, later, stage, rfl, hfront, -, hmove, hlater⟩
  · cases bound <;> cases hfirst
  obtain ⟨rfl, hsame, hread, ho, he⟩ := hmove.read_of_clearing rfl
  obtain ⟨since, rfl⟩ := hlater.resolve_left nofun
  refine ⟨front, since, rfl, hfront, hread, ho, he, ?_⟩
  rw [List.append_cons, among_serves, hsame]

/-- A release that has returned that it cleared a record has made an update that went through, and no
call but one after that. -/
theorem Follows.update_of_cleared (h : Follows bound host cidr s events (.returned (.ok released)))
    (hcleared : released.disposition = .affinityCleared) :
    ∃ (front later : List Event) (read stood : Versioned Block) (left : Nat),
      events = front ++ .step 0 :: later ∧
      Follows bound host cidr s front (.clearing read left) ∧
      Follows bound host cidr s (front ++ [.step 0]) (.cleaning .affinityCleared) ∧
      (among bound host cidr s front).store.blocks[read.value.path]? = some stood ∧
      read.revision = stood.revision ∧
      (among bound host cidr s (front ++ [.step 0])).store =
        { (among bound host cidr s front).store with
          blocks := (among bound host cidr s front).store.blocks.insert read.value.path
            ⟨read.value.released, read.revision.next⟩ } := by
  rcases h.exists_latest with hfirst | ⟨front, later, stage, rfl, hfront, -, hmove, -⟩
  · cases bound <;> cases hfirst
  have hcleaning := hmove.cleaning_of_returned rfl
  rw [hcleared] at hcleaning
  subst hcleaning
  rcases hfront.exists_latest with hfirst | ⟨front, later', stage, rfl, hfront, hnext, hmove, -⟩
  · cases bound <;> cases hfirst
  obtain ⟨read, stood, left, rfl, hstood, hrevision, hstore⟩ := hmove.update_of_cleared rfl
  exact ⟨front, later' ++ .step 0 :: later, read, stood, left, by simp, hfront, hnext, hstood,
    hrevision, hstore⟩

theorem filed_among (hs : s.Filed) (events : List Event) :
    (among bound host cidr s events).store.Filed :=
  System.filed_run hs events

theorem follows_of_released (h : ∀ e ∈ events, e = .step 0 ∨ ∃ r, e = .serve r)
    (hreturned : ∃ t ∈ (among bound host cidr s events).tasks,
      t.program = .done (.ok (.released released))) :
    Follows bound host cidr s events (.returned (.ok released)) := by
  obtain ⟨stage, hstage⟩ : ∃ stage, Follows bound host cidr s events stage := exists_follows h
  obtain ⟨t, ht, hdone⟩ := hreturned
  rw [hstage.tasks, List.mem_singleton] at ht
  subst ht
  obtain ⟨outcome, rfl, houtcome⟩ := Task.releasing_eq_done_iff.1 hdone
  cases outcome with
  | ok r =>
    cases houtcome
    exact hstage
  | error e => cases houtcome

/-- A lease that an update of another caller has recorded, and that every change since has kept, is still
there while the release has not written. -/
theorem Follows.lease_stands (h : Follows bound host cidr s events stage) (hearly : stage.IsEarly)
    {pre post : List Event} {v : Versioned Block}
    (hevents : events = pre ++ .serve (.updateBlock v) :: post)
    (hok : ((among bound host cidr s pre).store.updateBlock v).1.isOk) {a : Address}
    (ha : a ∈ v.value.allocated)
    (hkept : ∀ c ∈ ((among bound host cidr s pre).store.updateBlock v).2.changes v.value.path
      (Event.requests post), ∃ b ∈ c.value, a ∈ b.allocated) :
    ∃ record ∈ (among bound host cidr s events).store.blocks[v.value.path]?,
      a ∈ record.value.allocated := by
  have hupdated : (among bound host cidr s (pre ++ [.serve (.updateBlock v)])).store =
      ((among bound host cidr s pre).store.updateBlock v).2 :=
    congrArg System.store (among_concat bound host cidr s pre (.serve (.updateBlock v)))
  rw [h.store_eq hearly (hevents.trans (List.append_cons ..)), hupdated]
  exact Store.lease_lasts hok ha hkept

/-- A release that returns that it cleared a record has read a record with leases, of its host or of
nobody, and with its next call replaced one at the same revision. If the record was not deleted in
between, nor its revisions used up, it replaced just what it had read, by the same without an owner. So
if a call of another caller has recorded a lease before, and no later one has taken it away, the lease
is in the record written. -/
theorem clears_last_read (hs : s.Filed) (h : ∀ e ∈ events, e = .step 0 ∨ ∃ r, e = .serve r)
    (hreturned : ∃ t ∈ (among bound host cidr s events).tasks, t.program = .done (.ok (.released released)))
    (hcleared : released.disposition = .affinityCleared) :
    ∃ (front : List Event) (since : List Request) (rest : List Event) (left : Nat)
        (read stood : Versioned Block),
      let early := front ++ .step 0 :: since.map .serve
      let before := among bound host cidr s front
      let pending := among bound host cidr s early
      let after := among bound host cidr s (early ++ [.step 0])
      events = early ++ .step 0 :: rest ∧
      before.tasks = [.releasing bound host cidr (.reading left)] ∧
      before.store.blocks[Block.pathOf cidr]? = some read ∧
      pending.tasks = [.releasing bound host cidr (.clearing read left)] ∧
      pending.store.blocks[Block.pathOf cidr]? = some stood ∧
      after.tasks = [.releasing bound host cidr (.cleaning .affinityCleared)] ∧
      read.value.allocated ≠ ∅ ∧ (∀ owner ∈ read.value.affinity, owner = host) ∧
      (.deleted ∉ before.store.changes (Block.pathOf cidr) since →
        (before.store.changes (Block.pathOf cidr) since).length + 1 < 2 ^ 64 →
        stood = read ∧
        after.store = { pending.store with
          blocks := pending.store.blocks.insert (Block.pathOf cidr)
            ⟨{ stood.value with affinity := none }, stood.revision.next⟩ } ∧
        (stood.revision.number + 1 < 2 ^ 64 →
          stood.revision.next.number = stood.revision.number + 1) ∧
        ∀ pre v post, early = pre ++ .serve (.updateBlock v) :: post →
          v.value.path = Block.pathOf cidr →
          let updated := (among bound host cidr s pre).store.updateBlock v
          updated.1.isOk → ∀ a ∈ v.value.allocated,
            (∀ c ∈ updated.2.changes (Block.pathOf cidr) (Event.requests post),
              ∃ b ∈ c.value, a ∈ b.allocated) →
            ∃ written ∈ after.store.blocks[Block.pathOf cidr]?, a ∈ written.value.allocated) := by
  obtain ⟨early, rest, read, stood, left, rfl, hclearing, hcleaning, hstood, hrevision, hstore⟩ :=
    (follows_of_released h hreturned).update_of_cleared hcleared
  obtain ⟨front, since, rfl, hreading, hread, ho, he, hsince⟩ := hclearing.read_of_clearing
  have hpath : read.value.path = Block.pathOf cidr := (filed_among hs front).blocks hread
  rw [hpath] at hstood hstore
  refine ⟨front, since, rest, left, read, stood, rfl, hreading.tasks, hread, hclearing.tasks, hstood,
    hcleaning.tasks, ?_, ?_, fun hnot hfew => ?_⟩
  · intro hempty
    exact he (by simp [Block.isEmpty, hempty])
  · intro owner howner
    by_contra hne
    exact ho ((Block.isOwnedByOther_iff _ _).2 ⟨owner, howner, hne⟩)
  · have hline : Lineage (some read)
        ((among bound host cidr s front).store.changes (Block.pathOf cidr) since) (some stood) := by
      rw [← hread, ← hstood, hsince]
      exact Store.lineage _ _ _
    obtain ⟨-, rfl⟩ := hline.eq_of_revision_eq hrevision.symm hnot hfew
    refine ⟨rfl, hstore, Revision.number_next_of_lt, ?_⟩
    intro pre v post hearly hv updated hok a ha hkept
    rw [← hv] at hkept
    obtain ⟨record, hrecord, hlease⟩ := hclearing.lease_stands trivial hearly hok ha hkept
    rw [hv, hstood] at hrecord
    cases hrecord
    refine ⟨⟨stood.value.released, stood.revision.next⟩, ?_, hlease⟩
    rw [hstore]
    exact Std.ExtTreeMap.getElem?_insert_self

/-- Another caller leases a second address after the release has read the block. The release meets a
conflict, reads again and clears the block, with both leases in it. -/
theorem clears_last_read_of_conflict :
    let cidr : Network := ⟨⟨.v4, 0x0A000000, by decide⟩, 26, by decide⟩
    let leased := ((Block.claimed cidr "host" false).mark ⟨.v4, 0x0A000001, by decide⟩).2
    let more := (leased.mark ⟨.v4, 0x0A000002, by decide⟩).2
    let s := Store.empty.after [.createBlock leased]
    let events : List Event := [.step 0, .serve (.updateBlock ⟨more, .initial⟩), .step 0, .step 0,
      .serve (.getBlock cidr), .step 0, .step 0]
    let released : Released := ⟨cidr, .affinityCleared, none⟩
    (s.Filed ∧ (∀ e ∈ events, e = .step 0 ∨ ∃ r, e = .serve r) ∧
      (∃ t ∈ (among 3 "host" cidr s events).tasks, t.program = .done (.ok (.released released))) ∧
      released.disposition = .affinityCleared) ∧
    (∃ (front : List Event) (since : List Request) (rest : List Event) (read : Versioned Block),
      events = front ++ .step 0 :: since.map .serve ++ .step 0 :: rest ∧
      (among 3 "host" cidr s front).store.blocks[Block.pathOf cidr]? = some read ∧
      (among 3 "host" cidr s (front ++ .step 0 :: since.map .serve)).store.blocks[Block.pathOf cidr]? =
        some read) ∧
    (among 3 "host" cidr s events).store.getBlock cidr =
      .ok ⟨{ more with affinity := none }, Revision.initial.next.next⟩ := by
  intro cidr leased more s events released
  have hfiled : s.Filed := Store.filed_empty.after _
  have hevents : ∀ e ∈ events, e = .step 0 ∨ ∃ r, e = .serve r := by simp [events]
  have hreturned : ∃ t ∈ (among 3 "host" cidr s events).tasks,
      t.program.result = some (.ok (.released released)) := by decide +kernel
  simp only [Program.result_eq_some_iff] at hreturned
  obtain ⟨front, since, rest, left, read, stood, hsplit, -, hread, -, hstood, -, -, -, hlast⟩ :=
    clears_last_read hfiled hevents hreturned rfl
  have hkept : .deleted ∉ (among 3 "host" cidr s front).store.changes (Block.pathOf cidr) since := by
    intro hmem
    obtain ⟨c, hc⟩ := Store.exists_delete_of_mem_changes hmem
    have hdelete : .serve (.deleteBlock c) ∈ events := by
      rw [hsplit]
      simp [hc]
    simp [events] at hdelete
  have hfew : ((among 3 "host" cidr s front).store.changes (Block.pathOf cidr) since).length + 1 <
      2 ^ 64 := by
    have hchanges := (among 3 "host" cidr s front).store.length_changes_le (Block.pathOf cidr) since
    have hevents := congrArg List.length hsplit
    simp only [List.length_append, List.length_cons, List.length_nil, List.length_map, events] at hevents
    omega
  obtain ⟨rfl, -⟩ := hlast hkept hfew
  exact ⟨⟨hfiled, hevents, hreturned, rfl⟩, ⟨front, since, rest, _, hsplit, hread, hstood⟩,
    by decide +kernel⟩

end Release

end HostBlocks
