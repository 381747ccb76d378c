import HostBlocks.Proofs.Interleaving.System

/-!
# Runs by places

What a task has left to do does not say at which place of its operation it is: a search that comes to
its last candidate may have the same calls before it as another one. Where more than one task counts, a
run is followed with a place for each task beside the system, and each event changes the places in one
of four ways.
-/
namespace HostBlocks

inductive Place where
  | claiming (target : Target) (policy : Policy) (host : String) (stage : Claim.Stage)
  | releasing (bound : Nat) (host : String) (cidr : Network) (stage : Release.Stage)

namespace Place

def operation : Place → Operation
  | claiming target policy host _ => .claim target host policy
  | releasing bound host cidr _ => .release bound host cidr

def host (place : Place) : String := place.operation.host

def task : Place → Task
  | claiming target policy host stage => .claiming target policy host stage
  | releasing bound host cidr stage => .releasing bound host cidr stage

inductive Starts : Operation → Place → Prop
  | claim {target : Target} {host : String} {policy : Policy} {stage : Claim.Stage}
      (h : target.Starts host policy stage) :
      Starts (.claim target host policy) (claiming target policy host stage)
  | release (bound : Nat) (host : String) (cidr : Network) :
      Starts (.release bound host cidr) (releasing bound host cidr (.round bound cidr bound))

inductive Move (s : Store) : Place → Place → Store → Prop
  | claim {target : Target} {policy : Policy} {host : String} {stage stage' : Claim.Stage}
      {s' : Store} (h : Claim.Move host policy s stage stage' s') :
      Move s (claiming target policy host stage) (claiming target policy host stage') s'
  | release {bound : Nat} {host : String} {cidr : Network} {stage stage' : Release.Stage}
      {s' : Store} (h : Release.Move bound host cidr s stage stage' s') :
      Move s (releasing bound host cidr stage) (releasing bound host cidr stage') s'

variable {s s' : Store} {place place' : Place}

@[simp] theorem operation_task (place : Place) : place.task.operation = place.operation := by
  cases place <;> rfl

theorem Move.operation_eq (h : Move s place place' s') : place'.operation = place.operation := by
  cases h <;> rfl

theorem Move.host_eq (h : Move s place place' s') : place'.host = place.host :=
  congrArg Operation.host h.operation_eq

theorem Move.not_isDone (h : Move s place place' s') : ¬place.task.IsDone := by
  rintro ⟨outcome, houtcome⟩
  cases h with
  | claim h =>
    obtain ⟨result, rfl, -⟩ := Task.claiming_eq_done_iff.1 houtcome
    cases h
  | release h =>
    obtain ⟨result, rfl, -⟩ := Task.releasing_eq_done_iff.1 houtcome
    cases h

theorem exists_starts (operation : Operation) :
    ∃ place, Starts operation place ∧ Task.of operation = place.task := by
  cases operation with
  | claim target host policy =>
    obtain ⟨stage, hstarts, hof⟩ := Task.of_claim target policy host
    exact ⟨_, .claim hstarts, hof⟩
  | release bound host cidr => exact ⟨_, .release bound host cidr, Task.of_release bound host cidr⟩

/-- A task makes one of the moves from its place, or has returned. -/
theorem exists_move (place : Place) (s : Store) (h : ¬place.task.IsDone) :
    ∃ place' s', Move s place place' s' ∧ place.task.step s = (place'.task, s') := by
  cases place with
  | claiming target policy host stage =>
    obtain ⟨stage', s', hstep, hmove | ⟨⟨outcome, rfl⟩, -⟩⟩ :=
      Task.step_claiming target policy host stage s
    · exact ⟨_, s', .claim hmove, hstep⟩
    · exact absurd ⟨_, rfl⟩ h
  | releasing bound host cidr stage =>
    obtain ⟨stage', s', hstep, hmove | ⟨⟨outcome, rfl⟩, -⟩⟩ :=
      Task.step_releasing bound host cidr stage s
    · exact ⟨_, s', .release hmove, hstep⟩
    · exact absurd ⟨_, rfl⟩ h

end Place

/-- What an event makes of the store `s` and of the places of its tasks. -/
inductive Next (s : Store) (places : List Place) : Event → Store → List Place → Prop
  | start {operation : Operation} {place : Place} (h : Place.Starts operation place) :
      Next s places (.start operation) s (places ++ [place])
  | move {i : Nat} {place place' : Place} {s' : Store} (hi : places[i]? = some place)
      (h : Place.Move s place place' s') (hstep : place.task.step s = (place'.task, s')) :
      Next s places (.step i) s' (places.set i place')
  | rest {i : Nat} (h : ∀ place ∈ places[i]?, place.task.IsDone) : Next s places (.step i) s places
  | serve (request : Request) : Next s places (.serve request) (s.answer request).2 places

namespace System

def At (sys : System) (places : List Place) : Prop := sys.tasks = places.map Place.task

theorem at_of (s : Store) : (of s).At [] := rfl

variable {sys : System} {places : List Place}

theorem At.getElem? (h : sys.At places) (i : Nat) :
    sys.tasks[i]? = places[i]?.map Place.task := by
  rw [h, List.getElem?_map]

theorem At.next (h : sys.At places) (e : Event) :
    ∃ places', Next sys.store places e (sys.next e).store places' ∧ (sys.next e).At places' := by
  cases e with
  | start operation =>
    obtain ⟨place, hstarts, hof⟩ := Place.exists_starts operation
    refine ⟨_, .start hstarts, ?_⟩
    simp only [At, System.next, List.map_append, hof]
    rw [h]
    rfl
  | serve request => exact ⟨places, .serve request, h⟩
  | step i =>
    cases hi : places[i]? with
    | none =>
      have htask : sys.tasks[i]? = none := by rw [h.getElem?, hi]; rfl
      rw [next_step_of_none htask]
      exact ⟨places, .rest (by simp [hi]), h⟩
    | some place =>
      have htask : sys.tasks[i]? = some place.task := by rw [h.getElem?, hi]; rfl
      rw [next_step_of_some htask]
      by_cases hdone : place.task.IsDone
      · obtain ⟨hlt, hget⟩ := List.getElem?_eq_some_iff.1 htask
        rw [Task.step_of_isDone hdone, ← hget, List.set_getElem_self]
        exact ⟨places, .rest (by simpa [hi] using hdone), h⟩
      · obtain ⟨place', s', hmove, hstep⟩ := place.exists_move sys.store hdone
        rw [hstep]
        refine ⟨_, .move hi hmove hstep, ?_⟩
        simp only [At, List.map_set]
        rw [h]

end System

end HostBlocks
