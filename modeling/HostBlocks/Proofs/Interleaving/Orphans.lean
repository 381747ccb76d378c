import HostBlocks.Proofs.Interleaving.Listed
import HostBlocks.Proofs.Interleaving.Tenure

/-!
# Entries that are left behind

When every operation has returned, an entry of the index is stale if its host does not own the block. A
claim leaves such an entry when the record that it met is gone by the time it looks again, and a release
leaves one for another host when it deletes that host's block. The entry stays until an operation of its
host returns with the entry set right. There are no other stale entries.
-/
namespace HostBlocks

/-- No answer both comes with the right entry and leaves it behind. -/
theorem Operation.settled_of_stranded {operation : Operation} {outcome : Outcome Answer}
    {path : String} (h : operation.stranded outcome = some path) :
    operation.settled outcome = none := by
  unfold stranded at h
  split at h
  · rfl
  · cases h

namespace Task

variable {t : Task} {path : String}

theorem settled_of_stranded (h : t.stranded = some path) : t.settled = none := by
  obtain ⟨outcome, hresult, hstranded⟩ := Option.bind_eq_some_iff.1 h
  rw [settled, hresult, Option.bind_some]
  exact Operation.settled_of_stranded hstranded

theorem Deletes.not_isDone (h : t.Deletes path) : ¬t.IsDone := by
  rintro ⟨outcome, houtcome⟩
  obtain ⟨cidr, hcidr, -⟩ := h
  rw [houtcome] at hcidr
  cases hcidr

end Task

namespace Place

variable {place : Place} {path : String}

/-- An operation that has yet to set an entry right has not returned. -/
theorem stranded_of_pends (h : place.pends = some path) : place.task.stranded = none := by
  cases place with
  | claiming target policy host stage =>
    cases stage with
    | creating | rereading | withdrawing => rfl
    | probing | recording | returned => cases h
  | releasing bound host cidr stage =>
    cases stage with
    | cleaning => rfl
    | reading | deleting | clearing | returned => cases h

theorem not_isDone_of_pends (h : place.pends = some path) : ¬place.task.IsDone := by
  rintro ⟨outcome, houtcome⟩
  cases place with
  | claiming target policy host stage =>
    obtain ⟨result, rfl, -⟩ := Task.claiming_eq_done_iff.1 houtcome
    cases h
  | releasing bound host cidr stage =>
    obtain ⟨result, rfl, -⟩ := Task.releasing_eq_done_iff.1 houtcome
    cases h

end Place

namespace System

variable (sys : System) (path host : String)

/-- With this event an operation of the host returns with the right entry for the path. -/
def Settles : Event → Prop
  | .step i => ∃ t ∈ sys.tasks[i]?, t.operation.host = host ∧ ¬t.IsDone ∧
      (t.step sys.store).1.settled = some path
  | .start _ => False
  | .serve _ => False

/-- This event leaves the host with an entry for the path and without the block: a claim of the host
returns and leaves its entry behind, or an operation of another host deletes the block. -/
def Orphans : Event → Prop
  | .step i => ∃ t ∈ sys.tasks[i]?,
      t.operation.host = host ∧ ¬t.IsDone ∧ (t.step sys.store).1.stranded = some path ∨
        t.operation.host ≠ host ∧ t.Deletes path ∧ sys.store.Owned path host
  | .start _ => False
  | .serve _ => False

def Unsettled : System → List Event → Prop
  | _, [] => True
  | sys, e :: events => ¬sys.Settles path host e ∧ Unsettled (sys.next e) events

/-- One of the events orphans the entry and none after it settles it. -/
def Orphaned : System → List Event → Prop
  | _, [] => False
  | sys, e :: events =>
    sys.Orphans path host e ∧ (sys.next e).Unsettled path host events ∨
      Orphaned (sys.next e) events

end System

/-- An entry is known to be stale, as the flag says, or else an operation of its host has yet to set it
right. -/
structure Accounted (s : Store) (places : List Place) (path host : String) (flag : Prop) : Prop where
  stale : flag → s.Listed path host ∧ ¬s.Owned path host
  known : s.Listed path host → ¬s.Owned path host → flag ∨ ∃ (i : Nat) (place : Place),
    places[i]? = some place ∧ place.host = host ∧ place.pends = some path

namespace Accounted

variable {s s' : Store} {places : List Place} {path host : String} {flag flag' : Prop} {i : Nat}
  {place place' : Place}

theorem congr (h : Accounted s places path host flag) (hflag : flag' ↔ flag) :
    Accounted s places path host flag' := by
  rwa [propext hflag]

theorem start (h : Accounted s places path host flag) (place : Place) :
    Accounted s (places ++ [place]) path host flag where
  stale := h.stale
  known hlisted howned := by
    refine (h.known hlisted howned).imp_right ?_
    rintro ⟨i, other, hother, hpends⟩
    have hi := (List.getElem?_eq_some_iff.1 hother).1
    exact ⟨i, other, (List.getElem?_append_left hi).trans hother, hpends⟩

/-- The others still have to do what they had. -/
theorem pending_set (hne : place.pends ≠ some path ∨ place.host ≠ host) (hi : places[i]? = some place)
    (h : ∃ (j : Nat) (other : Place), places[j]? = some other ∧ other.host = host ∧
      other.pends = some path) :
    ∃ (j : Nat) (other : Place), (places.set i place')[j]? = some other ∧ other.host = host ∧
      other.pends = some path := by
  obtain ⟨j, other, hother, hhost, hpends⟩ := h
  have hij : i ≠ j := by
    rintro rfl
    cases hi.symm.trans hother
    exact hne.elim (fun h => h hpends) fun h => h hhost
  exact ⟨j, other, (List.getElem?_set_ne hij).trans hother, hhost, hpends⟩

theorem own (h : Accounted s places path host flag) (hi : places[i]? = some place)
    (hhost : place'.host = host) (hturn : Place.Turn host path s s' place place') :
    Accounted s' (places.set i place') path host
      (place'.task.stranded = some path ∨ flag ∧ place'.task.settled ≠ some path) := by
  cases hturn with
  | settled hsettled hindex =>
    refine ⟨?_, fun hlisted howned => absurd (hindex.1 hlisted) howned⟩
    rintro (hstranded | ⟨-, hnot⟩)
    · rw [Task.settled_of_stranded hstranded] at hsettled
      cases hsettled
    · exact absurd hsettled hnot
  | stranded hstranded hlisted howned =>
    exact ⟨fun _ => ⟨hlisted, howned⟩, fun _ _ => Or.inl (Or.inl hstranded)⟩
  | pending hpends hlisted howned =>
    refine ⟨?_, fun _ _ => Or.inr ⟨i, place', ?_, hhost, hpends⟩⟩
    · rintro (hstranded | ⟨hflag, -⟩)
      · rw [Place.stranded_of_pends hpends] at hstranded
        cases hstranded
      · exact ⟨hlisted (h.stale hflag).1, mt howned (h.stale hflag).2⟩
    · exact List.getElem?_set_self (List.getElem?_eq_some_iff.1 hi).1
  | idle hpends hsettled hstranded hlisted howned =>
    refine ⟨?_, fun hlisted' howned' => ?_⟩
    · rintro (hstranded' | ⟨hflag, -⟩)
      · exact absurd hstranded' hstranded
      · exact ⟨hlisted.2 (h.stale hflag).1, mt howned.1 (h.stale hflag).2⟩
    · refine (h.known (hlisted.1 hlisted') (mt howned.2 howned')).imp ?_ ?_
      · exact fun hflag => Or.inr ⟨hflag, hsettled⟩
      · exact pending_set (Or.inl hpends) hi

theorem foreign (h : Accounted s places path host flag) (hi : places[i]? = some place)
    (hne : place.host ≠ host) (hleaves : s.Leaves host s')
    (hlisted : s.Owned path host → s.Listed path host)
    (hdeleted : place.task.Deletes path → ¬s'.Owned path host)
    (hkept : ¬place.task.Deletes path → s.Owned path host → s'.Owned path host) :
    Accounted s' (places.set i place') path host
      (place.task.Deletes path ∧ s.Owned path host ∨ flag) where
  stale := by
    rintro (⟨hdeletes, howned⟩ | hflag)
    · exact ⟨hleaves.listed.2 (hlisted howned), hdeleted hdeletes⟩
    · exact ⟨hleaves.listed.2 (h.stale hflag).1, mt hleaves.owned (h.stale hflag).2⟩
  known hlisted' howned' := by
    by_cases howned : s.Owned path host
    · refine Or.inl (Or.inl ⟨?_, howned⟩)
      by_contra hnot
      exact howned' (hkept hnot howned)
    · exact (h.known (hleaves.listed.1 hlisted') howned).imp Or.inr (pending_set (Or.inr hne) hi)

end Accounted

theorem Operation.IsReleaseOf.host_eq {operation : Operation} {path host : String}
    (h : operation.IsReleaseOf host path) : operation.host = host := by
  cases operation with
  | claim => exact h.elim
  | release => exact h.1

theorem Place.Tracks.isOrderly {s : Store} {place : Place} (h : place.Tracks s) :
    place.task.IsOrderly s := by
  cases place with
  | claiming => exact .claim h.1
  | releasing => exact .release h.2.1

namespace System

variable {sys : System} {s' : Store} {places places' : List Place} {e : Event} {events : List Event}
  {path host : String} {flag : Prop}

theorem settles_step_iff {i : Nat} {t : Task} (hi : sys.tasks[i]? = some t) (hdone : ¬t.IsDone) :
    sys.Settles path host (.step i) ↔
      t.operation.host = host ∧ (t.step sys.store).1.settled = some path := by
  simp [Settles, hi, hdone]

theorem orphans_step_iff {i : Nat} {t : Task} (hi : sys.tasks[i]? = some t) (hdone : ¬t.IsDone) :
    sys.Orphans path host (.step i) ↔
      t.operation.host = host ∧ (t.step sys.store).1.stranded = some path ∨
        t.operation.host ≠ host ∧ t.Deletes path ∧ sys.store.Owned path host := by
  simp [Orphans, hi, hdone]

theorem idle_of_isDone {i : Nat} (h : ∀ t ∈ sys.tasks[i]?, t.IsDone) :
    ¬sys.Settles path host (.step i) ∧ ¬sys.Orphans path host (.step i) := by
  constructor
  · rintro ⟨t, ht, -, hdone, -⟩
    exact hdone (h t ht)
  · rintro ⟨t, ht, ⟨-, hdone, -⟩ | ⟨-, hdeletes, -⟩⟩
    · exact hdone (h t ht)
    · exact hdeletes.not_isDone (h t ht)

theorem Serial.accounted (h : sys.Serial places (e :: events)) (he : e.Operates)
    (hnext : Next sys.store places e s' places')
    (hacc : Accounted sys.store places path host flag) :
    Accounted s' places' path host
      (sys.Orphans path host e ∨ flag ∧ ¬sys.Settles path host e) := by
  cases hnext with
  | @start operation place =>
    exact (hacc.start place).congr (by simp [Orphans, Settles])
  | serve request =>
    rw [Store.answer_of_isRead he]
    exact hacc.congr (by simp [Orphans, Settles])
  | @rest i hrest =>
    have hdone : ∀ t ∈ sys.tasks[i]?, t.IsDone := by
      rw [h.at_places.getElem?]
      simpa using hrest
    exact hacc.congr (by simp [idle_of_isDone hdone])
  | @move i place place' _ hi hm hstep =>
    have htask : sys.tasks[i]? = some place.task := by
      rw [h.at_places.getElem?, hi]
      rfl
    have hs' : (place.task.step sys.store).2 = s' := congrArg Prod.snd hstep
    have hfiled := h.upheld.filed
    have htracks : place.Tracks sys.store :=
      h.upheld.tracks Event.mem_callers_step hi hm.not_isDone
    rw [settles_step_iff htask hm.not_isDone, orphans_step_iff htask hm.not_isDone, hstep,
      place.operation_task]
    by_cases hhost : place.host = host
    · subst hhost
      refine (hacc.own hi hm.host_eq (hm.turn hfiled htracks path)).congr ?_
      simp [Place.host]
    · refine (hacc.foreign hi hhost (hm.leaves hfiled hhost) h.upheld.listed ?_ ?_).congr ?_
      · intro hdeletes
        exact Store.not_owned_of_absent (hs' ▸ hdeletes.step)
      · rintro hnot ⟨stored, hstored, howner⟩
        refine ⟨stored, ?_, howner⟩
        rw [← hs']
        refine (htracks.isOrderly.step_of_owned hstored howner (fun hrelease => ?_) hnot).1
        rw [place.operation_task] at hrelease
        exact absurd hrelease.host_eq hhost
      · have hne : place.operation.host ≠ host := hhost
        simp [hne]

/-- In a run at whose end all operations have returned, an entry is stale at the end exactly if it has
been orphaned and not settled since. -/
theorem Serial.stale_iff (h : sys.Serial places events) (he : ∀ e ∈ events, e.Operates)
    (hacc : Accounted sys.store places path host flag)
    (hdone : ∀ t ∈ (sys.run events).tasks, t.IsDone) :
    ((sys.run events).store.Listed path host ∧ ¬(sys.run events).store.Owned path host) ↔
      sys.Orphaned path host events ∨ flag ∧ sys.Unsettled path host events := by
  induction events generalizing sys places flag with
  | nil =>
    simp only [run_nil, Orphaned, Unsettled, and_true, false_or]
    refine ⟨fun ⟨hlisted, howned⟩ => ?_, hacc.stale⟩
    refine (hacc.known hlisted howned).resolve_right ?_
    rintro ⟨i, place, hi, -, hpends⟩
    have htask : sys.tasks[i]? = some place.task := by
      rw [h.at_places.getElem?, hi]
      rfl
    exact Place.not_isDone_of_pends hpends (hdone _ (List.mem_of_getElem? htask))
  | cons e events ih =>
    have heh := he e List.mem_cons_self
    obtain ⟨places', hnext, hserial⟩ := h.next heh
    rw [run_cons, ih hserial (fun e' he' => he e' (List.mem_cons_of_mem e he'))
      (h.accounted heh hnext hacc) hdone]
    simp only [Orphaned, Unsettled]
    tauto

/-- If hosts take turns and entries and owners agree at first, then once all operations have returned an
entry is stale exactly if it has been orphaned and not settled since. -/
theorem stale_iff_orphaned (history : List Request) (events : List Event)
    (hagree : ∀ path host, (Store.empty.after history).Listed path host ↔
      (Store.empty.after history).Owned path host)
    (he : ∀ e ∈ events, e.Operates)
    (hturns : (System.of (Store.empty.after history)).TakesTurns events)
    (hdone : ∀ t ∈ ((System.of (Store.empty.after history)).run events).tasks, t.IsDone)
    (path host : String) :
    let now := (System.of (Store.empty.after history)).run events
    (now.store.Listed path host ∧ ¬now.store.Owned path host) ↔
      (System.of (Store.empty.after history)).Orphaned path host events := by
  intro now
  have hserial := serial_of (Store.filed_empty.after history) (hagree _ _).2 hturns
  have hacc : Accounted (Store.empty.after history) [] path host False :=
    ⟨False.elim, fun hlisted howned => absurd ((hagree path host).1 hlisted) howned⟩
  rw [hserial.stale_iff he hacc hdone, false_and, or_false]

/-- Two hosts release a block that nobody owns and have both read it. One deletes it, a third host claims
it, and the second release deletes the record of the new owner, whose entry stays. -/
theorem stale_iff_orphaned_of_releases :
    let cidr : Network := ⟨⟨.v4, 0x0A000000, by decide⟩, 26, by decide⟩
    let history : List Request := [.createBlock (.of cidr)]
    let events : List Event :=
      [.start (.release 3 "first" cidr), .step 0, .start (.release 3 "second" cidr), .step 1,
        .step 0, .step 0, .start (.claim (.block cidr) "third" ⟨false⟩), .step 2, .step 2, .step 1,
        .step 1]
    let s := Store.empty.after history
    let now := (System.of s).run events
    ((∀ path host, s.Listed path host ↔ s.Owned path host) ∧ (∀ e ∈ events, e.Operates) ∧
      (System.of s).TakesTurns events ∧ ∀ t ∈ now.tasks, t.IsDone) ∧
    ((now.store.Listed (Block.pathOf cidr) "third" ∧ ¬now.store.Owned (Block.pathOf cidr) "third") ↔
      (System.of s).Orphaned (Block.pathOf cidr) "third" events) ∧
    now.store.Listed (Block.pathOf cidr) "third" := by
  intro cidr history events s now
  have hs : s = { Store.empty with
      blocks := Store.empty.blocks.insert (Block.of cidr).path ⟨.of cidr, .initial⟩ } :=
    congrArg Prod.snd (Store.createBlock_of_absent (by simp [Store.empty]))
  have hagree : ∀ path host, s.Listed path host ↔ s.Owned path host := by
    intro path host
    rw [hs, Store.owned_insert]
    split <;> simp [Store.Listed, Store.Owned, Store.empty, Block.of]
  have he : ∀ e ∈ events, e.Operates := by decide +kernel
  have hturns : (System.of s).TakesTurns events := by decide +kernel
  have hdone : ∀ t ∈ now.tasks, t.IsDone := by decide +kernel
  refine ⟨⟨hagree, he, hturns, hdone⟩,
    stale_iff_orphaned history events hagree he hturns hdone (Block.pathOf cidr) "third", ?_⟩
  decide +kernel

/-- A claim meets a record, and its owner releases the block before the claim looks again. The claim
fails, for there is no record, and leaves its entry behind. -/
theorem stale_after_failed_claim :
    let cidr : Network := ⟨⟨.v4, 0x0A000000, by decide⟩, 26, by decide⟩
    let events : List Event :=
      [.start (.claim (.block cidr) "first" ⟨false⟩), .step 0, .step 0,
        .start (.claim (.block cidr) "second" ⟨false⟩), .step 1, .step 1,
        .start (.release 3 "first" cidr), .step 2, .step 2, .step 2, .step 1]
    let now := (System.of .empty).run events
    ((∀ path host, Store.empty.Listed path host ↔ Store.empty.Owned path host) ∧
      (∀ e ∈ events, e.Operates) ∧ (System.of .empty).TakesTurns events ∧
      ∀ t ∈ now.tasks, t.IsDone) ∧
    now.tasks[1]?.map (·.program.result) =
      some (some (.error (.store (.notFound (Block.pathOf cidr))))) ∧
    now.store.Listed (Block.pathOf cidr) "second" ∧
    ¬now.store.Owned (Block.pathOf cidr) "second" := by
  intro cidr events now
  refine ⟨⟨fun path host => ?_, ?_, ?_, ?_⟩, ?_, ?_, ?_⟩
  · simp [Store.Listed, Store.Owned, Store.empty]
  all_goals decide +kernel

end System

end HostBlocks
