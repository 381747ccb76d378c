import HostBlocks.Proofs.History.Changes
import HostBlocks.Proofs.Interleaving.System

/-!
# What a release deletes

A release deletes a record in a call of its own, after the call in which it has read the record without
leases. Whatever is written at the path between the two calls is deleted. A release that reads a block
with leases writes back what it has read, and that call is refused if the record has changed.
-/
namespace HostBlocks

def Program.deletion {α : Type} : Program α → Option Network
  | call (.deleteBlock cidr) _ => some cidr
  | _ => none

namespace Task

variable {t : Task} {s : Store} {path host : String}

def Deletes (t : Task) (path : String) : Prop :=
  ∃ cidr ∈ t.program.deletion, Block.pathOf cidr = path

instance (t : Task) (path : String) : Decidable (t.Deletes path) :=
  inferInstanceAs (Decidable (∃ cidr ∈ t.program.deletion, Block.pathOf cidr = path))

theorem not_deletes_claiming {target : Target} {policy : Policy} {stage : Claim.Stage} :
    ¬(claiming target policy host stage).Deletes path := by
  rintro ⟨cidr, h, -⟩
  cases stage <;> cases h

theorem deletes_releasing_iff {bound : Nat} {cidr : Network} {stage : Release.Stage} :
    (releasing bound host cidr stage).Deletes path ↔
      stage = .deleting ∧ Block.pathOf cidr = path := by
  constructor
  · rintro ⟨c, h, hpath⟩
    cases stage with
    | deleting =>
      cases h
      exact ⟨rfl, hpath⟩
    | reading | clearing | cleaning | returned => cases h
  · rintro ⟨rfl, hpath⟩
    exact ⟨cidr, rfl, hpath⟩

theorem not_deletes_of (operation : Operation) : ¬(of operation).Deletes path := by
  cases operation with
  | claim target host policy =>
    obtain ⟨stage, -, hof⟩ := of_claim target policy host
    rw [hof]
    exact not_deletes_claiming
  | release bound host cidr =>
    rw [of_release, deletes_releasing_iff]
    rintro ⟨h, -⟩
    cases bound <;> cases h

theorem Deletes.step (h : t.Deletes path) : (t.step s).2.blocks[path]? = none := by
  obtain ⟨operation, program⟩ := t
  obtain ⟨cidr, hprogram, rfl⟩ := h
  cases program with
  | done outcome => cases hprogram
  | call r next =>
    cases r with
    | deleteBlock c =>
      cases hprogram
      show (s.deleteBlock cidr).2.blocks[Block.pathOf cidr]? = none
      cases hs : s.blocks[Block.pathOf cidr]? with
      | none => rw [Store.deleteBlock_of_absent hs, hs]
      | some stored =>
        rw [Store.deleteBlock_of_present hs]
        exact Std.ExtTreeMap.getElem?_erase_self
    | getBlock | createBlock | updateBlock | createAffinity | deleteAffinity | listAffinities =>
      cases hprogram

end Task

namespace System

/-- The next call of the task with this number deletes what stands at the path. -/
def Deletes (sys : System) (path : String) (i : Nat) : Prop := ∃ t ∈ sys.tasks[i]?, t.Deletes path

instance (sys : System) (path : String) (i : Nat) : Decidable (sys.Deletes path i) :=
  inferInstanceAs (Decidable (∃ t ∈ sys.tasks[i]?, t.Deletes path))

theorem Deletes.next {sys : System} {path : String} {i : Nat} (h : sys.Deletes path i) :
    (sys.next (.step i)).store.blocks[path]? = none := by
  obtain ⟨t, hi, hdeletes⟩ := h
  rw [next_step_of_some hi]
  exact hdeletes.step

end System

/-- The block that the calls write last at the path, unless they write none there or delete it last. -/
def Store.lastWritten (s : Store) (p : String) (calls : List Request) : Option Block :=
  (s.changes p calls).getLast?.bind Change.value

theorem Store.value_after (s : Store) {p : String} {calls : List Request} {read : Versioned Block}
    (hread : s.blocks[p]? = some read) (hnot : ∀ cidr, .deleteBlock cidr ∉ calls) :
    ∃ now, (s.after calls).blocks[p]? = some now ∧
      now.value = (s.lastWritten p calls).getD read.value := by
  have hline := s.lineage p calls
  have hkept : .deleted ∉ s.changes p calls := by
    intro hmem
    obtain ⟨cidr, hcidr⟩ := exists_delete_of_mem_changes hmem
    exact hnot cidr hcidr
  obtain ⟨now, hnow⟩ := hline.present_of_not_deleted hread hkept
  refine ⟨now, hnow, ?_⟩
  have hvalue := hline.map_value
  rw [hnow, hread] at hvalue
  cases hlast : (s.changes p calls).getLast? with
  | none =>
    rw [hlast] at hvalue
    simpa [lastWritten, hlast] using hvalue
  | some c =>
    rw [hlast] at hvalue
    have hc : some now.value = c.value := hvalue
    simp [lastWritten, hlast, ← hc]

namespace Release

/-- The only call after which a release deletes is the read of an empty block. -/
theorem Move.read_of_deleting {bound : Nat} {host : String} {cidr : Network} {s s' : Store}
    {stage stage' : Stage} (h : Move bound host cidr s stage stage' s') (hd : stage' = .deleting) :
    s' = s ∧ ∃ read, s.blocks[Block.pathOf cidr]? = some read ∧ read.value.isEmpty := by
  cases h with
  | empty hs ho he => exact ⟨rfl, _, hs, he⟩
  | @conflict _ _ left => cases left <;> cases hd
  | missing | foreign | leased | deleted | absent | cleared | vanished | cleaned => cases hd

variable (bound : Nat) (host : String) (cidr : Network) (s : Store)

/-- A release started on the store `s`, after these events. -/
def among (events : List Event) : System :=
  ((System.of s).next (.start (.release bound host cidr))).run events

variable {events : List Event}

theorem among_concat (events : List Event) (e : Event) :
    among bound host cidr s (events ++ [e]) = (among bound host cidr s events).next e :=
  System.run_append _ events [e]

theorem among_serves (events : List Event) (calls : List Request) :
    (among bound host cidr s (events ++ calls.map .serve)).store =
      (among bound host cidr s events).store.after calls := by
  induction calls using List.reverseRecOn with
  | nil => rw [List.map_nil, List.append_nil, Store.after_nil]
  | append_singleton calls r ih =>
    rw [List.map_append, ← List.append_assoc, Store.after_append, ← ih]
    exact congrArg System.store (among_concat bound host cidr s _ (.serve r))

/-- A release among calls of other callers is at this place after these events. It comes from place to
place with calls of its own. -/
inductive Follows : List Event → Stage → Prop
  | start : Follows [] (.round bound cidr bound)
  | move {events : List Event} {stage stage' : Stage} (h : Follows events stage)
      (hmove : Move bound host cidr (among bound host cidr s events).store stage stage'
        (among bound host cidr s (events ++ [.step 0])).store)
      (htasks : (among bound host cidr s (events ++ [.step 0])).tasks =
        [.releasing bound host cidr stage']) : Follows (events ++ [.step 0]) stage'
  | rest {events : List Event} {outcome : Outcome Released} (h : Follows events (.returned outcome)) :
      Follows (events ++ [.step 0]) (.returned outcome)
  | serve {events : List Event} {stage : Stage} (h : Follows events stage) (r : Request) :
      Follows (events ++ [.serve r]) stage

variable {bound host cidr s} {stage stage' : Stage}

theorem among_step
    (h : (among bound host cidr s events).tasks = [.releasing bound host cidr stage]) :
    among bound host cidr s (events ++ [.step 0]) =
      ⟨((Task.releasing bound host cidr stage).step (among bound host cidr s events).store).2,
        [((Task.releasing bound host cidr stage).step (among bound host cidr s events).store).1]⟩ := by
  have hzero : (among bound host cidr s events).tasks[0]? =
      some (.releasing bound host cidr stage) := by
    rw [h]
    rfl
  rw [among_concat, System.next_step_of_some hzero, h]
  rfl

theorem Follows.tasks (h : Follows bound host cidr s events stage) :
    (among bound host cidr s events).tasks = [.releasing bound host cidr stage] := by
  induction h with
  | start => exact congrArg (fun t => [t]) (Task.of_release bound host cidr)
  | move _ _ htasks => exact htasks
  | rest _ ih => rw [among_step ih, Task.step_of_isDone ⟨_, rfl⟩]
  | serve _ r ih =>
    rw [among_concat]
    exact ih

theorem exists_follows (h : ∀ e ∈ events, e = .step 0 ∨ ∃ r, e = .serve r) :
    ∃ stage, Follows bound host cidr s events stage := by
  induction events using List.reverseRecOn with
  | nil => exact ⟨_, .start⟩
  | append_singleton events e ih =>
    obtain ⟨stage, hstage⟩ := ih fun e he => h e (List.mem_append_left _ he)
    rcases h e (List.mem_append_right _ List.mem_cons_self) with rfl | ⟨r, rfl⟩
    · obtain ⟨stage', s', hstep, hmove⟩ :=
        Task.step_releasing bound host cidr stage (among bound host cidr s events).store
      have hnext := among_step hstage.tasks
      rw [hstep] at hnext
      rcases hmove with hmove | ⟨⟨outcome, rfl⟩, -, -⟩
      · exact ⟨stage', hstage.move (by rw [hnext]; exact hmove) (by rw [hnext])⟩
      · exact ⟨_, hstage.rest⟩
    · exact ⟨stage, hstage.serve r⟩

/-- A release came to its place with a call of its own, unless it is at its first place. It makes no call
after that, or it has returned. -/
theorem Follows.exists_latest (h : Follows bound host cidr s events stage') :
    stage' = .round bound cidr bound ∨
      ∃ (front later : List Event) (stage : Stage), events = front ++ .step 0 :: later ∧
        Follows bound host cidr s front stage ∧
        Follows bound host cidr s (front ++ [.step 0]) stage' ∧
        Move bound host cidr (among bound host cidr s front).store stage stage'
          (among bound host cidr s (front ++ [.step 0])).store ∧
        ((∃ outcome, stage' = .returned outcome) ∨ ∃ since : List Request, later = since.map .serve) := by
  induction h with
  | start => exact Or.inl rfl
  | @move events stage stage' h hmove htasks =>
    exact Or.inr ⟨events, [], stage, rfl, h, h.move hmove htasks, hmove, Or.inr ⟨[], rfl⟩⟩
  | rest _ ih =>
    rcases ih with hfirst | ⟨front, later, stage, rfl, hfront, hlatest, hmove, -⟩
    · exact Or.inl hfirst
    · exact Or.inr ⟨front, later ++ [.step 0], stage, by simp, hfront, hlatest, hmove,
        Or.inl ⟨_, rfl⟩⟩
  | serve _ r ih =>
    rcases ih with hfirst | ⟨front, later, stage, rfl, hfront, hlatest, hmove, hlater⟩
    · exact Or.inl hfirst
    · refine Or.inr ⟨front, later ++ [.serve r], stage, by simp, hfront, hlatest, hmove, ?_⟩
      refine hlater.imp_right ?_
      rintro ⟨since, rfl⟩
      exact ⟨since ++ [r], by simp⟩

variable (bound host cidr s)

/-- A release among calls of other callers is about to delete when its latest call has read an empty
block. -/
theorem exists_read (h : ∀ e ∈ events, e = .step 0 ∨ ∃ r, e = .serve r) :
    ∃ stage, (among bound host cidr s events).tasks = [.releasing bound host cidr stage] ∧
      (stage = .deleting → ∃ front since read, events = front ++ .step 0 :: since.map .serve ∧
        (among bound host cidr s front).store.blocks[Block.pathOf cidr]? = some read ∧
        read.value.isEmpty ∧
        (among bound host cidr s events).store =
          (among bound host cidr s front).store.after since) := by
  obtain ⟨stage, hstage⟩ := exists_follows h
  refine ⟨stage, hstage.tasks, fun hd => ?_⟩
  rcases hstage.exists_latest with hfirst | ⟨front, later, stage, rfl, -, -, hmove, hlater⟩
  · rw [hd] at hfirst
    cases bound <;> cases hfirst
  · obtain ⟨hsame, read, hstored, he⟩ := hmove.read_of_deleting hd
    rcases hlater with ⟨outcome, rfl⟩ | ⟨since, rfl⟩
    · cases hd
    · refine ⟨front, since, read, rfl, hstored, he, ?_⟩
      rw [List.append_cons, among_serves, hsame]

/-- What a release deletes is the record as it was last written since the release read it. So it has no
leases exactly if the last write in between, if any, left none. -/
theorem deletes_last_written
    (h : ∀ e ∈ events, e = .step 0 ∨ ∃ r, e = .serve r ∧ ∀ c, r ≠ .deleteBlock c)
    (hdeletes : (among bound host cidr s events).Deletes (Block.pathOf cidr) 0) :
    ∃ front since read removed, events = front ++ .step 0 :: since.map .serve ∧
      (among bound host cidr s front).store.blocks[Block.pathOf cidr]? = some read ∧
      read.value.isEmpty ∧
      (among bound host cidr s events).store.blocks[Block.pathOf cidr]? = some removed ∧
      (among bound host cidr s (events ++ [.step 0])).store.blocks[Block.pathOf cidr]? = none ∧
      removed.value =
        ((among bound host cidr s front).store.lastWritten (Block.pathOf cidr) since).getD
          read.value ∧
      (removed.value.isEmpty ↔
        ∀ b ∈ (among bound host cidr s front).store.lastWritten (Block.pathOf cidr) since,
          b.isEmpty) := by
  obtain ⟨stage, htasks, hread⟩ := exists_read bound host cidr s fun e he =>
    (h e he).imp_right fun ⟨r, hr, _⟩ => ⟨r, hr⟩
  have hd : stage = .deleting := by
    obtain ⟨t, ht, hdeletes⟩ := hdeletes
    rw [htasks] at ht
    cases ht
    exact (Task.deletes_releasing_iff.1 hdeletes).1
  obtain ⟨front, since, read, hevents, hstored, he, hstore⟩ := hread hd
  have hnot : ∀ c, .deleteBlock c ∉ since := by
    intro c hc
    have hmem : .serve (.deleteBlock c) ∈ events := by
      rw [hevents]
      exact List.mem_append_right _ (List.mem_cons_of_mem _ (List.mem_map_of_mem hc))
    rcases h _ hmem with hstep | ⟨r, hr, hother⟩
    · cases hstep
    · cases hr
      exact hother c rfl
  obtain ⟨removed, hremoved, hvalue⟩ :=
    (among bound host cidr s front).store.value_after hstored hnot
  refine ⟨front, since, read, removed, hevents, hstored, he, ?_, ?_, hvalue, ?_⟩
  · rw [hstore]
    exact hremoved
  · rw [among_concat]
    exact hdeletes.next
  · rw [hvalue]
    cases (among bound host cidr s front).store.lastWritten (Block.pathOf cidr) since with
    | none => simp [he]
    | some b => simp

theorem deletes_last_written_of_unchanged :
    let cidr : Network := ⟨⟨.v4, 0x0A000000, by decide⟩, 26, by decide⟩
    let s := Store.empty.after [.createBlock (.claimed cidr "first" false)]
    let events : List Event := [.step 0, .serve (.getBlock cidr)]
    ((∀ e ∈ events, e = .step 0 ∨ ∃ r, e = .serve r ∧ ∀ c, r ≠ .deleteBlock c) ∧
      (among 3 "first" cidr s events).Deletes (Block.pathOf cidr) 0) ∧
    ∃ front since read removed, events = front ++ .step 0 :: since.map .serve ∧
      (among 3 "first" cidr s front).store.blocks[Block.pathOf cidr]? = some read ∧
      read.value.isEmpty ∧
      (among 3 "first" cidr s events).store.blocks[Block.pathOf cidr]? = some removed ∧
      (among 3 "first" cidr s (events ++ [.step 0])).store.blocks[Block.pathOf cidr]? = none ∧
      removed.value =
        ((among 3 "first" cidr s front).store.lastWritten (Block.pathOf cidr) since).getD
          read.value ∧
      (removed.value.isEmpty ↔
        ∀ b ∈ (among 3 "first" cidr s front).store.lastWritten (Block.pathOf cidr) since,
          b.isEmpty) := by
  intro cidr s events
  have hevents : ∀ e ∈ events, e = .step 0 ∨ ∃ r, e = .serve r ∧ ∀ c, r ≠ .deleteBlock c := by
    simp [events]
  have hdeletes : (among 3 "first" cidr s events).Deletes (Block.pathOf cidr) 0 := by
    decide +kernel
  exact ⟨⟨hevents, hdeletes⟩, deletes_last_written 3 "first" cidr s hevents hdeletes⟩

/-- Another caller leases an address of the block after the release has read it empty. The lease is
recorded, and the release deletes it. -/
theorem deletes_lease :
    let cidr : Network := ⟨⟨.v4, 0x0A000000, by decide⟩, 26, by decide⟩
    let empty := Block.claimed cidr "first" false
    let leased := (empty.mark ⟨.v4, 0x0A000001, by decide⟩).2
    let s := Store.empty.after [.createBlock empty]
    let read := among 3 "first" cidr s [.step 0]
    let now := read.next (.serve (.updateBlock ⟨leased, .initial⟩))
    let last := (now.next (.step 0)).next (.step 0)
    read.store.getBlock cidr = .ok ⟨empty, .initial⟩ ∧
      now.store.getBlock cidr = .ok ⟨leased, Revision.initial.next⟩ ∧ ¬leased.isEmpty ∧
      now.Deletes (Block.pathOf cidr) 0 ∧
      last.store.getBlock cidr = .error (.notFound (Block.pathOf cidr)) ∧
      last.tasks[0]?.map (·.program.result) =
        some (some (.ok (.released ⟨cidr, .deleted, none⟩))) := by
  intro cidr empty leased s read now last
  refine ⟨?_, ?_, ?_, ?_, ?_, ?_⟩
  all_goals decide +kernel

end Release

end HostBlocks
