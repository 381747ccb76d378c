import HostBlocks.Proofs.Interleaving.Release
import Mathlib.Data.List.Basic

/-!
# Operations on one store

Any number of claims and releases share a store. An operation starts when it is called, and from then
on it makes its calls one by one, with any calls of the others between two of its own. A caller
outside these operations may call the store directly. A run is the list of what happens, in order.
-/
namespace HostBlocks

inductive Target where
  | block (cidr : Network)
  | free (settings : Settings) (catalog : Catalog) (words : Nat → Words) (family : Family)
      (requested : Option Network)

inductive Operation where
  | claim (target : Target) (host : String) (policy : Policy)
  | release (bound : Nat) (host : String) (cidr : Network)

inductive Answer where
  | claimed (cidr : Network)
  | released (released : Released)
deriving DecidableEq

namespace Target

def program (target : Target) (host : String) (policy : Policy) : Program (Outcome Network) :=
  match target with
  | block cidr => (claimBlock cidr host policy).map (Except.map fun _ => cidr)
  | free settings catalog words family requested =>
    claimFree settings catalog words host family requested policy

end Target

inductive Target.Starts (host : String) (policy : Policy) : Target → Claim.Stage → Prop
  | block (cidr : Network) : Starts host policy (block cidr) (.recording cidr)
  | refused {settings : Settings} {catalog : Catalog} {words : Nat → Words} {family : Family}
      {requested : Option Network} {e : AllocationError} (h : ∀ f, e ≠ .noFreeBlocks f) :
      Starts host policy (free settings catalog words family requested) (.returned (.error e))
  | search {settings : Settings} {catalog : Catalog} {words : Nat → Words} {family : Family}
      {requested : Option Network} {pools : List Network}
      (h : Claim.pools catalog family requested = .ok pools) :
      Starts host policy (free settings catalog words family requested)
        (.search family (Claim.candidates settings words pools))

theorem Target.exists_starts (target : Target) (host : String) (policy : Policy) :
    ∃ stage, target.Starts host policy stage ∧
      target.program host policy = stage.program host policy := by
  cases target with
  | block cidr => exact ⟨_, .block cidr, rfl⟩
  | free settings catalog words family requested =>
    rcases Claim.claimFree_cases settings host family policy catalog words requested with
      ⟨e, hne, he⟩ | ⟨pools, hpools, -, hprobe⟩
    · exact ⟨_, .refused hne, he⟩
    · refine ⟨_, .search hpools, ?_⟩
      rw [Claim.Stage.program_search]
      exact hprobe

namespace Operation

def host : Operation → String
  | claim _ host _ => host
  | release _ host _ => host

def program : Operation → Program (Outcome Answer)
  | claim target host policy => (target.program host policy).map (Except.map .claimed)
  | release bound host cidr => (releaseBlock bound host cidr).map (Except.map .released)

/-- The network that is named, if any, has no host bits set. -/
def IsClear : Operation → Prop
  | claim (.block cidr) _ _ => cidr.trunc = cidr
  | claim (.free _ _ _ _ _) _ _ => True
  | release _ _ cidr => cidr.trunc = cidr

def IsClaim : Operation → Prop
  | claim _ _ _ => True
  | release _ _ _ => False

instance : DecidablePred IsClear
  | claim (.block cidr) _ _ => inferInstanceAs (Decidable (cidr.trunc = cidr))
  | claim (.free _ _ _ _ _) _ _ => inferInstanceAs (Decidable True)
  | release _ _ cidr => inferInstanceAs (Decidable (cidr.trunc = cidr))

instance : DecidablePred IsClaim
  | claim _ _ _ => inferInstanceAs (Decidable True)
  | release _ _ _ => inferInstanceAs (Decidable False)

end Operation

theorem Target.Starts.isClear {target : Target} {host : String} {policy : Policy}
    {stage : Claim.Stage} (h : target.Starts host policy stage)
    (hclear : (Operation.claim target host policy).IsClear) : stage.IsClear := by
  cases h with
  | block cidr => exact hclear
  | refused => trivial
  | @search settings catalog words family requested pools hpools =>
    exact Claim.Stage.isClear_search fun _ => Claim.trunc_of_mem_candidates

structure Task where
  operation : Operation
  program : Program (Outcome Answer)

namespace Task

def of (operation : Operation) : Task := ⟨operation, operation.program⟩

def step (t : Task) (s : Store) : Task × Store :=
  (⟨t.operation, (t.program.step s).1⟩, (t.program.step s).2)

def IsDone (t : Task) : Prop := ∃ outcome, t.program = .done outcome

def HasClaimed (t : Task) (cidr : Network) : Prop := t.program = .done (.ok (.claimed cidr))

instance (t : Task) : Decidable t.IsDone :=
  decidable_of_iff (∃ outcome ∈ t.program.result, True) (by simp [IsDone, Program.result_eq_some_iff])

instance (t : Task) (cidr : Network) : Decidable (t.HasClaimed cidr) :=
  decidable_of_iff (t.program.result = some (.ok (.claimed cidr))) Program.result_eq_some_iff

theorem step_of_isDone {t : Task} (h : t.IsDone) (s : Store) : t.step s = (t, s) := by
  obtain ⟨outcome, h⟩ := h
  cases t
  cases h
  rfl

section Places

variable (target : Target) (policy : Policy) (bound : Nat) (host : String) (cidr : Network)

def claiming (stage : Claim.Stage) : Task :=
  ⟨.claim target host policy, (stage.program host policy).map (Except.map .claimed)⟩

def releasing (stage : Release.Stage) : Task :=
  ⟨.release bound host cidr, (stage.program bound host cidr).map (Except.map .released)⟩

theorem of_claim : ∃ stage, target.Starts host policy stage ∧
    of (.claim target host policy) = claiming target policy host stage := by
  obtain ⟨stage, hstarts, hprogram⟩ := target.exists_starts host policy
  refine ⟨stage, hstarts, ?_⟩
  simp only [of, claiming, Operation.program, hprogram]

theorem of_release :
    of (.release bound host cidr) = releasing bound host cidr (.round bound cidr bound) := by
  simp only [of, releasing, Operation.program, Release.Stage.program_round, releaseBlock]

/-- A claim makes one of the moves from its place, or has returned. -/
theorem step_claiming (stage : Claim.Stage) (s : Store) :
    ∃ stage' s', (claiming target policy host stage).step s =
        (claiming target policy host stage', s') ∧
      (Claim.Move host policy s stage stage' s' ∨
        (∃ outcome, stage = .returned outcome) ∧ stage' = stage ∧ s' = s) := by
  by_cases hdone : ∃ outcome, stage = .returned outcome
  · obtain ⟨outcome, rfl⟩ := hdone
    exact ⟨_, s, rfl, Or.inr ⟨⟨outcome, rfl⟩, rfl, rfl⟩⟩
  · obtain ⟨stage', s', hmove, hstep⟩ :=
      Claim.exists_move host policy stage s fun outcome h => hdone ⟨outcome, h⟩
    refine ⟨stage', s', ?_, Or.inl hmove⟩
    simp only [step, claiming, Program.step_map, hstep]

/-- A release makes one of the moves from its place, or has returned. -/
theorem step_releasing (stage : Release.Stage) (s : Store) :
    ∃ stage' s', (releasing bound host cidr stage).step s =
        (releasing bound host cidr stage', s') ∧
      (Release.Move bound host cidr s stage stage' s' ∨
        (∃ outcome, stage = .returned outcome) ∧ stage' = stage ∧ s' = s) := by
  by_cases hdone : ∃ outcome, stage = .returned outcome
  · obtain ⟨outcome, rfl⟩ := hdone
    exact ⟨_, s, rfl, Or.inr ⟨⟨outcome, rfl⟩, rfl, rfl⟩⟩
  · obtain ⟨stage', s', hmove, hstep⟩ :=
      Release.exists_move bound host cidr stage s fun outcome h => hdone ⟨outcome, h⟩
    refine ⟨stage', s', ?_, Or.inl hmove⟩
    simp only [step, releasing, Program.step_map, hstep]

variable {target policy bound host cidr}

theorem claiming_eq_done_iff {stage : Claim.Stage} {outcome : Outcome Answer} :
    (claiming target policy host stage).program = .done outcome ↔
      ∃ result, stage = .returned result ∧ result.map .claimed = outcome := by
  simp only [claiming, Program.map_eq_done_iff, Claim.Stage.program_eq_done_iff]

theorem releasing_eq_done_iff {stage : Release.Stage} {outcome : Outcome Answer} :
    (releasing bound host cidr stage).program = .done outcome ↔
      ∃ result, stage = .returned result ∧ result.map .released = outcome := by
  simp only [releasing, Program.map_eq_done_iff, Release.Stage.program_eq_done_iff]

theorem hasClaimed_claiming_iff {stage : Claim.Stage} {c : Network} :
    (claiming target policy host stage).HasClaimed c ↔ stage = .returned (.ok c) := by
  rw [HasClaimed, claiming_eq_done_iff]
  constructor
  · rintro ⟨result, rfl, hresult⟩
    cases result with
    | ok c' =>
      cases hresult
      rfl
    | error e => cases hresult
  · intro h
    exact ⟨.ok c, h, rfl⟩

theorem not_hasClaimed_releasing {stage : Release.Stage} {c : Network} :
    ¬(releasing bound host cidr stage).HasClaimed c := by
  rw [HasClaimed, releasing_eq_done_iff]
  rintro ⟨result, -, hresult⟩
  cases result <;> cases hresult

end Places

end Task

structure System where
  store : Store
  tasks : List Task

/-- An operation is called, a task makes its next call, or someone else calls the store. -/
inductive Event where
  | start (operation : Operation)
  | step (task : Nat)
  | serve (request : Request)

namespace System

def of (s : Store) : System := ⟨s, []⟩

def next (sys : System) : Event → System
  | .start operation => { sys with tasks := sys.tasks ++ [.of operation] }
  | .step i =>
    match sys.tasks[i]? with
    | some t => ⟨(t.step sys.store).2, sys.tasks.set i (t.step sys.store).1⟩
    | none => sys
  | .serve request => { sys with store := (sys.store.answer request).2 }

theorem next_step_of_none {sys : System} {i : Nat} (h : sys.tasks[i]? = none) :
    sys.next (.step i) = sys := by
  simp only [next, h]

theorem next_step_of_some {sys : System} {i : Nat} {t : Task} (h : sys.tasks[i]? = some t) :
    sys.next (.step i) = ⟨(t.step sys.store).2, sys.tasks.set i (t.step sys.store).1⟩ := by
  simp only [next, h]

def run (sys : System) (events : List Event) : System := events.foldl next sys

@[simp] theorem run_nil (sys : System) : sys.run [] = sys := rfl

@[simp] theorem run_cons (sys : System) (e : Event) (events : List Event) :
    sys.run (e :: events) = (sys.next e).run events := rfl

theorem run_append (sys : System) (front back : List Event) :
    sys.run (front ++ back) = (sys.run front).run back := by
  simp [run]

variable {sys : System}

theorem operation_next (e : Event) {i : Nat} (hi : i < sys.tasks.length) :
    (sys.next e).tasks[i]?.map Task.operation = sys.tasks[i]?.map Task.operation := by
  cases e with
  | start operation => rw [next, List.getElem?_append_left hi]
  | step j =>
    cases hj : sys.tasks[j]? with
    | none => rw [next_step_of_none hj]
    | some t =>
      rw [next_step_of_some hj]
      by_cases hij : j = i
      · subst hij
        rw [List.getElem?_set_self hi, hj]
        rfl
      · rw [List.getElem?_set_ne hij]
  | serve request => rfl

theorem length_le_next (e : Event) : sys.tasks.length ≤ (sys.next e).tasks.length := by
  cases e with
  | start operation => simp [next]
  | step i =>
    cases hi : sys.tasks[i]? with
    | none => simp [next_step_of_none hi]
    | some t => simp [next_step_of_some hi]
  | serve request => exact Nat.le_refl _

/-- A task keeps its number. -/
theorem operation_run (events : List Event) {i : Nat} (hi : i < sys.tasks.length) :
    (sys.run events).tasks[i]?.map Task.operation = sys.tasks[i]?.map Task.operation := by
  induction events generalizing sys with
  | nil => rfl
  | cons e events ih =>
    rw [run_cons, ih (Nat.lt_of_lt_of_le hi (length_le_next e)), operation_next e hi]

/-- What every event keeps holds at the end of a run. -/
theorem run_keeps {P : System → Prop} (sys : System) (events : List Event) (h : P sys)
    (hnext : ∀ e ∈ events, ∀ now, P now → P (now.next e)) : P (sys.run events) := by
  induction events generalizing sys with
  | nil => exact h
  | cons e events ih =>
    exact ih (sys.next e) (hnext e List.mem_cons_self sys h)
      fun e' he' => hnext e' (List.mem_cons_of_mem e he')

end System

/-- What each task keeps true of its own place and relies on the others for: `moves` are the changes
of the store that tasks make and put up with, and `sound` is what these changes keep of the store. -/
structure Discipline where
  sound : Store → Prop
  moves : Store → Store → Prop
  holds : Task → Store → Prop
  sound_of_moves : ∀ {s s'}, sound s → moves s s' → sound s'
  stable : ∀ {t s s'}, sound s → moves s s' → holds t s → holds t s'
  step : ∀ {t s}, sound s → holds t s → holds (t.step s).1 (t.step s).2 ∧ moves s (t.step s).2

namespace Discipline

variable (d : Discipline)

def Kept (sys : System) : Prop := d.sound sys.store ∧ ∀ t ∈ sys.tasks, d.holds t sys.store

def Admits : Event → Prop
  | .start operation => ∀ s, d.sound s → d.holds (.of operation) s
  | .step _ => True
  | .serve request => ∀ s, d.sound s → d.moves s (s.answer request).2

variable {d}

theorem Kept.next {sys : System} (h : d.Kept sys) {e : Event} (he : d.Admits e) :
    d.Kept (sys.next e) := by
  obtain ⟨hsound, htasks⟩ := h
  cases e with
  | start operation =>
    refine ⟨hsound, fun t ht => ?_⟩
    rcases List.mem_append.1 ht with ht | ht
    · exact htasks t ht
    · rw [List.mem_singleton.1 ht]
      exact he _ hsound
  | step i =>
    cases hi : sys.tasks[i]? with
    | none =>
      rw [System.next_step_of_none hi]
      exact ⟨hsound, htasks⟩
    | some t =>
      rw [System.next_step_of_some hi]
      obtain ⟨hown, hmoves⟩ := d.step hsound (htasks t (List.mem_of_getElem? hi))
      refine ⟨d.sound_of_moves hsound hmoves, fun u hu => ?_⟩
      rcases List.mem_or_eq_of_mem_set hu with hu | rfl
      · exact d.stable hsound hmoves (htasks u hu)
      · exact hown
  | serve request =>
    have hmoves := he _ hsound
    exact ⟨d.sound_of_moves hsound hmoves, fun t ht => d.stable hsound hmoves (htasks t ht)⟩

theorem Kept.run {sys : System} (h : d.Kept sys) (events : List Event)
    (he : ∀ e ∈ events, d.Admits e) : d.Kept (sys.run events) :=
  sys.run_keeps events h fun e hmem _ hnow => hnow.next (he e hmem)

theorem kept_of {s : Store} (h : d.sound s) : d.Kept (System.of s) :=
  ⟨h, fun _ ht => absurd ht List.not_mem_nil⟩

end Discipline

end HostBlocks
