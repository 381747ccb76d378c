import HostBlocks.Proofs.History.Changes
import HostBlocks.Proofs.Interleaving.Places

/-!
# What kind of blocks a store holds

A claim creates a record of the block that it has found, and a release writes back what it has read. So
if a property holds of every block in the store and of every block that claims come to, it keeps
holding of every block in the store, however the operations interleave. Each record stands under its
own path all the while.
-/
namespace HostBlocks

variable {P : Network → Prop} {s s' : Store}

def Store.Holds (P : Network → Prop) (s : Store) : Prop :=
  ∀ (p : String) (stored : Versioned Block), s.blocks[p]? = some stored → P stored.value.cidr

theorem Store.holds_of_blocks_eq (h : s'.blocks = s.blocks) (hs : s.Holds P) : s'.Holds P := by
  unfold Holds
  rw [h]
  exact hs

theorem Store.holds_insert {path : String} {new : Versioned Block} (hs : s.Holds P)
    (hnew : P new.value.cidr) :
    ({ s with blocks := s.blocks.insert path new } : Store).Holds P := by
  intro p stored hstored
  by_cases hp : p = path
  · subst hp
    rw [Std.ExtTreeMap.getElem?_insert_self] at hstored
    cases hstored
    exact hnew
  · rw [getElem?_insert_of_ne hp] at hstored
    exact hs p stored hstored

theorem Store.holds_erase {path : String} (hs : s.Holds P) :
    ({ s with blocks := s.blocks.erase path } : Store).Holds P := by
  intro p stored hstored
  by_cases hp : p = path
  · subst hp
    rw [Std.ExtTreeMap.getElem?_erase_self] at hstored
    cases hstored
  · rw [getElem?_erase_of_ne hp] at hstored
    exact hs p stored hstored

namespace Place

def Writes (P : Network → Prop) : Place → Prop
  | claiming _ _ _ stage => stage.All fun c => P c.trunc
  | releasing _ _ _ (.clearing read _) => P read.value.cidr
  | _ => True

theorem writes_releasing_round (bound left : Nat) (host : String) (cidr : Network) :
    (releasing bound host cidr (.round bound cidr left)).Writes P := by
  cases left <;> trivial

theorem Move.holds {place place' : Place} (hm : Move s place place' s') (hs : s.Holds P)
    (h : place.Writes P) : s'.Holds P ∧ place'.Writes P := by
  cases hm with
  | claim hm =>
    have hnext := Claim.Stage.All.move h hm
    cases hm with
    | taken | free | present | own | lost | gone => exact ⟨hs, hnext⟩
    | recorded => exact ⟨Store.holds_of_blocks_eq Store.blocks_createAffinity hs, hnext⟩
    | withdrawn => exact ⟨Store.holds_of_blocks_eq Store.blocks_deleteAffinity hs, hnext⟩
    | created => exact ⟨Store.holds_insert hs h, hnext⟩
  | release hm =>
    cases hm with
    | missing | foreign | empty | absent | vanished => exact ⟨hs, trivial⟩
    | leased hstored => exact ⟨hs, hs _ _ hstored⟩
    | conflict => exact ⟨hs, writes_releasing_round _ _ _ _⟩
    | deleted => exact ⟨Store.holds_erase hs, trivial⟩
    | cleared => exact ⟨Store.holds_insert hs h, trivial⟩
    | cleaned => exact ⟨Store.holds_of_blocks_eq Store.blocks_deleteAffinity hs, trivial⟩

end Place

def Discipline.contents (P : Network → Prop) : Discipline where
  sound := Store.Holds P
  moves s s' := s.Holds P → s'.Holds P
  holds t _ := ∃ place : Place, t = place.task ∧ place.Writes P
  sound_of_moves hs h := h hs
  stable _ _ h := h
  step {t s} hs h := by
    obtain ⟨place, rfl, hwrites⟩ := h
    by_cases hdone : place.task.IsDone
    · rw [Task.step_of_isDone hdone]
      exact ⟨⟨place, rfl, hwrites⟩, id⟩
    · obtain ⟨place', s', hm, hstep⟩ := place.exists_move s hdone
      obtain ⟨hholds, hwrites'⟩ := hm.holds hs hwrites
      rw [hstep]
      exact ⟨⟨place', rfl, hwrites'⟩, fun _ => hholds⟩

/-- A claim can start if the blocks it is for have the property, and a release in any case. -/
theorem Discipline.contents_admits_start {operation : Operation}
    (h : ∀ target host policy stage, operation = .claim target host policy →
      target.Starts host policy stage → stage.All fun c => P c.trunc) :
    (contents P).Admits (.start operation) := by
  obtain ⟨place, hstarts, hof⟩ := Place.exists_starts operation
  intro s _
  refine ⟨place, hof, ?_⟩
  cases hstarts with
  | claim hstarts => exact h _ _ _ _ rfl hstarts
  | release bound host cidr => exact Place.writes_releasing_round _ _ _ _

theorem Discipline.contents_admits_serve {request : Request} (h : request.change = none) :
    (contents P).Admits (.serve request) :=
  fun _ _ => Store.holds_of_blocks_eq (Store.blocks_of_change_none h)

theorem Task.filed_step (t : Task) (h : s.Filed) : (t.step s).2.Filed := by
  obtain ⟨operation, program⟩ := t
  cases program with
  | done outcome => exact h
  | call r next => exact h.answer r

namespace System

theorem filed_next {sys : System} (h : sys.store.Filed) (e : Event) : (sys.next e).store.Filed := by
  cases e with
  | start operation => exact h
  | step i =>
    cases hi : sys.tasks[i]? with
    | none =>
      rw [next_step_of_none hi]
      exact h
    | some t =>
      rw [next_step_of_some hi]
      exact t.filed_step h
  | serve request => exact h.answer request

theorem filed_run {sys : System} (h : sys.store.Filed) (events : List Event) :
    (sys.run events).store.Filed :=
  sys.run_keeps (P := fun now => now.store.Filed) events h fun e _ _ hnow => filed_next hnow e

end System

end HostBlocks
