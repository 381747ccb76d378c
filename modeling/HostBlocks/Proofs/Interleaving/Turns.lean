import HostBlocks.Proofs.Interleaving.Places

/-!
# Hosts that take turns

A host may start an operation when none of its own is under way. One that will make no more calls is
not under way, whether it has returned or has been abandoned at some place, and the store stays as the
abandoned operation left it. So hosts take turns if, at each start of an operation, every operation of
the same host has returned or makes no call later on.
-/
namespace HostBlocks

def Request.IsRead : Request → Prop
  | .getBlock _ => True
  | .listAffinities _ => True
  | _ => False

instance : DecidablePred Request.IsRead
  | .getBlock _ => inferInstanceAs (Decidable True)
  | .listAffinities _ => inferInstanceAs (Decidable True)
  | .createBlock _ => inferInstanceAs (Decidable False)
  | .updateBlock _ => inferInstanceAs (Decidable False)
  | .deleteBlock _ => inferInstanceAs (Decidable False)
  | .createAffinity _ => inferInstanceAs (Decidable False)
  | .deleteAffinity _ => inferInstanceAs (Decidable False)

theorem Store.answer_of_isRead {s : Store} {r : Request} (h : r.IsRead) : (s.answer r).2 = s := by
  cases r with
  | getBlock | listAffinities => rfl
  | createBlock | updateBlock | deleteBlock | createAffinity | deleteAffinity => exact h.elim

namespace Event

/-- A start of an operation on networks without host bits, a call of a task, or another caller's
reading. -/
def Operates : Event → Prop
  | start operation => operation.IsClear
  | step _ => True
  | serve request => request.IsRead

instance : DecidablePred Operates
  | start operation => inferInstanceAs (Decidable operation.IsClear)
  | step _ => inferInstanceAs (Decidable True)
  | serve request => inferInstanceAs (Decidable request.IsRead)

def starter : Event → Option String
  | start operation => some operation.host
  | step _ => none
  | serve _ => none

def caller : Event → Option Nat
  | start _ => none
  | step i => some i
  | serve _ => none

def callers (events : List Event) : List Nat := events.filterMap caller

variable {e : Event} {events : List Event} {i j : Nat}

theorem mem_callers_cons (h : i ∈ callers events) : i ∈ callers (e :: events) := by
  obtain ⟨e', he', hi⟩ := List.mem_filterMap.1 h
  exact List.mem_filterMap.2 ⟨e', List.mem_cons_of_mem e he', hi⟩

theorem mem_callers_step : i ∈ callers (step i :: events) :=
  List.mem_filterMap.2 ⟨step i, List.mem_cons_self, rfl⟩

end Event

namespace System

/-- An operation of the host has not returned and makes a call among the events. -/
def Busy (sys : System) (host : String) (events : List Event) : Prop :=
  ∃ i ∈ Event.callers events, ∃ t ∈ sys.tasks[i]?, t.operation.host = host ∧ ¬t.IsDone

instance (sys : System) (host : String) (events : List Event) : Decidable (sys.Busy host events) :=
  inferInstanceAs (Decidable
    (∃ i ∈ Event.callers events, ∃ t ∈ sys.tasks[i]?, t.operation.host = host ∧ ¬t.IsDone))

/-- No operation is started for a host that is busy later on with an earlier one. -/
def TakesTurns : System → List Event → Prop
  | _, [] => True
  | sys, e :: events =>
    (∀ host ∈ e.starter, ¬sys.Busy host events) ∧ (sys.next e).TakesTurns events

instance TakesTurns.decide : (sys : System) → (events : List Event) → Decidable (sys.TakesTurns events)
  | _, [] => inferInstanceAs (Decidable True)
  | sys, e :: events =>
    have := TakesTurns.decide (sys.next e) events
    inferInstanceAs (Decidable
      ((∀ host ∈ e.starter, ¬sys.Busy host events) ∧ (sys.next e).TakesTurns events))

end System

theorem Place.Starts.host_eq {operation : Operation} {place : Place}
    (h : Place.Starts operation place) : place.host = operation.host := by
  cases h <;> rfl

/-- An operation under way after an event was under way before it or has been started by it. -/
theorem Next.unfinished {s s' : Store} {places places' : List Place} {e : Event} {i : Nat}
    {place' : Place} (h : Next s places e s' places') (hi : places'[i]? = some place')
    (hdone : ¬place'.task.IsDone) :
    (∃ place, places[i]? = some place ∧ place.host = place'.host ∧ ¬place.task.IsDone) ∨
      i = places.length ∧ e.starter = some place'.host := by
  cases h with
  | rest | serve => exact Or.inl ⟨place', hi, rfl, hdone⟩
  | @start operation place hstarts =>
    rw [List.getElem?_append] at hi
    split at hi
    · exact Or.inl ⟨place', hi, rfl, hdone⟩
    · obtain ⟨hlt, hplace⟩ := List.getElem?_eq_some_iff.1 hi
      rw [List.getElem_singleton] at hplace
      subst hplace
      rw [List.length_singleton] at hlt
      exact Or.inr ⟨by omega, congrArg some hstarts.host_eq.symm⟩
  | @move j place place'' _ hj hmove _ =>
    rw [List.getElem?_set] at hi
    split at hi
    · next hij =>
      subst hij
      split at hi
      · cases hi
        exact Or.inl ⟨place, hj, hmove.host_eq.symm, hmove.not_isDone⟩
      · cases hi
    · exact Or.inl ⟨place', hi, rfl, hdone⟩

theorem System.At.isDone_of_not_busy {sys : System} {places : List Place} {host : String}
    {events : List Event} (h : sys.At places) (hidle : ¬sys.Busy host events) {i : Nat}
    (hi : i ∈ Event.callers events) {place : Place} (hplace : places[i]? = some place)
    (hhost : place.host = host) : place.task.IsDone := by
  by_contra hdone
  refine hidle ⟨i, hi, place.task, ?_, ?_, hdone⟩
  · rw [h.getElem?, hplace]
    rfl
  · rw [place.operation_task]
    exact hhost

/-- Of the operations that make calls among the events and have not returned, no two are of one
host. -/
structure Apart (places : List Place) (events : List Event) : Prop where
  same : ∀ {i j : Nat} {place place' : Place}, i ∈ Event.callers events → j ∈ Event.callers events →
    places[i]? = some place → places[j]? = some place' → place.host = place'.host →
    ¬place.task.IsDone → ¬place'.task.IsDone → i = j

theorem apart_nil (events : List Event) : Apart [] events where
  same _ _ hplace := by cases hplace

theorem Apart.next {sys : System} {s' : Store} {places places' : List Place} {e : Event}
    {events : List Event} (h : Apart places (e :: events)) (hat : sys.At places)
    (hturns : sys.TakesTurns (e :: events)) (hnext : Next sys.store places e s' places') :
    Apart places' events := by
  have hnew : ∀ {i : Nat} {place : Place} {host : String}, i ∈ Event.callers events →
      places[i]? = some place → e.starter = some host → place.host = host → place.task.IsDone :=
    fun hi hplace hstarter => hat.isDone_of_not_busy (hturns.1 _ hstarter) hi hplace
  refine ⟨fun {i j place place'} hi hj hplace hplace' hhost hdone hdone' => ?_⟩
  rcases hnext.unfinished hplace hdone with ⟨old, hold, hhost₁, hdone₁⟩ | ⟨hlen, hstarter⟩
  · rcases hnext.unfinished hplace' hdone' with ⟨old', hold', hhost₂, hdone₂⟩ | ⟨-, hstarter'⟩
    · exact h.same (Event.mem_callers_cons hi) (Event.mem_callers_cons hj) hold hold'
        (hhost₁.trans (hhost.trans hhost₂.symm)) hdone₁ hdone₂
    · exact absurd (hnew hi hold hstarter' (hhost₁.trans hhost)) hdone₁
  · rcases hnext.unfinished hplace' hdone' with ⟨old', hold', hhost₂, hdone₂⟩ | ⟨hlen', -⟩
    · exact absurd (hnew hj hold' hstarter (hhost₂.trans hhost.symm)) hdone₂
    · rw [hlen, hlen']

end HostBlocks
