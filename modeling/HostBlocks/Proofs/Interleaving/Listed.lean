import HostBlocks.Proofs.Interleaving.Contents
import HostBlocks.Proofs.Interleaving.Upkeep

/-!
# Owned blocks are listed

As long as hosts take turns, every owned block has an entry of its owner, between any two calls and
wherever operations are abandoned: the entry of a host is only touched by its one operation under way,
which writes it before the host can own the block and removes it after the host has lost it.
-/
namespace HostBlocks

/-- Every owned block is listed, and what the operations rely on that have calls to make is true. -/
structure Upheld (s : Store) (places : List Place) (events : List Event) : Prop where
  filed : s.Filed
  listed : ∀ {path host : String}, s.Owned path host → s.Listed path host
  tracks : ∀ {i : Nat} {place : Place}, i ∈ Event.callers events → places[i]? = some place →
    ¬place.task.IsDone → place.Tracks s

/-- A call of a host's own operation leaves its owned blocks listed. -/
theorem Place.Turn.listed {host path : String} {s s' : Store} {place place' : Place}
    (h : Place.Turn host path s s' place place') (hlisted : s.Owned path host → s.Listed path host)
    (howned : s'.Owned path host) : s'.Listed path host := by
  cases h with
  | settled _ hindex => exact hindex.2 howned
  | stranded _ hlisted' => exact hlisted'
  | pending _ hlisted' howned' => exact hlisted' (hlisted (howned' howned))
  | idle _ _ _ hlisted' howned' => exact hlisted'.2 (hlisted (howned'.1 howned))

namespace Upheld

variable {s s' : Store} {places places' : List Place} {e : Event} {events : List Event}

theorem tail (h : Upheld s places (e :: events)) : Upheld s places events where
  filed := h.filed
  listed := h.listed
  tracks hi := h.tracks (Event.mem_callers_cons hi)

theorem next (h : Upheld s places (e :: events)) (hapart : Apart places (e :: events))
    (he : e.Operates) (hnext : Next s places e s' places') (hfiled : s'.Filed) :
    Upheld s' places' events := by
  cases hnext with
  | @start operation place hstarts =>
    refine ⟨h.filed, h.listed, fun {i other} hi hother hdone => ?_⟩
    rw [List.getElem?_append] at hother
    split at hother
    · exact h.tail.tracks hi hother hdone
    · rw [List.mem_singleton.1 (List.mem_of_getElem? hother)]
      exact hstarts.tracks he s
  | serve request =>
    rw [Store.answer_of_isRead he]
    exact h.tail
  | rest => exact h.tail
  | @move i place place' _ hi hm _ =>
    have htracks : place.Tracks s := h.tracks Event.mem_callers_step hi hm.not_isDone
    refine ⟨hfiled, fun {path host} howned => ?_, fun {j other} hj hother hdone => ?_⟩
    · by_cases hhost : place.host = host
      · subst hhost
        exact (hm.turn h.filed htracks path).listed h.listed howned
      · have hleaves := hm.leaves h.filed hhost
        exact hleaves.listed.2 (h.listed (hleaves.owned howned))
    · rw [List.getElem?_set] at hother
      split at hother
      · split at hother
        · cases hother
          exact htracks.move h.filed hm
        · cases hother
      · next hne =>
        have hhost : place.host ≠ other.host := fun heq =>
          hne (hapart.same Event.mem_callers_step (Event.mem_callers_cons hj) hi hother heq
            hm.not_isDone hdone)
        exact (h.tail.tracks hj hother hdone).leaves (hm.leaves h.filed hhost)
          (htracks.spares h.filed hm)

end Upheld

namespace System

/-- The system is at these places, from where hosts take turns among the events. -/
structure Serial (sys : System) (places : List Place) (events : List Event) : Prop where
  at_places : sys.At places
  turns : sys.TakesTurns events
  apart : Apart places events
  upheld : Upheld sys.store places events

variable {sys : System} {places : List Place} {e : Event} {events : List Event}

theorem serial_of {s : Store} (hfiled : s.Filed)
    (hlisted : ∀ {path host : String}, s.Owned path host → s.Listed path host)
    (hturns : (of s).TakesTurns events) : (of s).Serial [] events where
  at_places := at_of s
  turns := hturns
  apart := apart_nil events
  upheld := ⟨hfiled, hlisted, fun _ hplace => by cases hplace⟩

theorem Serial.next (h : sys.Serial places (e :: events)) (he : e.Operates) :
    ∃ places', Next sys.store places e (sys.next e).store places' ∧
      (sys.next e).Serial places' events := by
  obtain ⟨places', hnext, hat⟩ := h.at_places.next e
  exact ⟨places', hnext, hat, h.turns.2, h.apart.next h.at_places h.turns hnext,
    h.upheld.next h.apart he hnext (filed_next h.upheld.filed e)⟩

/-- An owned block is listed at every point of the run. -/
theorem Serial.listed_take (h : sys.Serial places events) (he : ∀ e ∈ events, e.Operates) (k : Nat)
    {path host : String} (howned : (sys.run (events.take k)).store.Owned path host) :
    (sys.run (events.take k)).store.Listed path host := by
  induction events generalizing sys places k with
  | nil =>
    rw [List.take_nil] at howned ⊢
    exact h.upheld.listed howned
  | cons e events ih =>
    cases k with
    | zero => exact h.upheld.listed howned
    | succ k =>
      obtain ⟨places', -, hserial⟩ := h.next (he e List.mem_cons_self)
      exact ih hserial (fun e' he' => he e' (List.mem_cons_of_mem e he')) k howned

end System

def Store.IsClear (s : Store) : Prop :=
  ∀ (p : String) (stored : Versioned Block), s.blocks[p]? = some stored →
    stored.value.cidr.trunc = stored.value.cidr

/-- No block has host bits, and for every block with an owner there is the affinity record of the owner
under its path. -/
structure Store.Indexed (s : Store) : Prop where
  clear : s.IsClear
  listed : ∀ (p : String) (stored : Versioned Block) (host : String), s.blocks[p]? = some stored →
    stored.value.affinity = some host →
    ∃ record, s.affinities[(Affinity.of host stored.value.cidr).path]? = some record

section

variable {s : Store}

theorem Store.Indexed.listed_of_owned (hfiled : s.Filed) (h : s.Indexed) {path host : String}
    (howned : s.Owned path host) : s.Listed path host := by
  obtain ⟨stored, hstored, howner⟩ := howned
  have hlisted := hfiled.listed_iff.2 (h.listed _ _ _ hstored howner)
  rw [Affinity.of, h.clear _ _ hstored] at hlisted
  rw [← hfiled.blocks hstored]
  exact hlisted

theorem Store.indexed_of_listed (hfiled : s.Filed) (hclear : s.IsClear)
    (h : ∀ {path host : String}, s.Owned path host → s.Listed path host) : s.Indexed where
  clear := hclear
  listed p stored host hstored howner := by
    obtain rfl := hfiled.blocks hstored
    rw [← hfiled.listed_iff, Affinity.of, hclear _ stored hstored]
    exact h ⟨stored, hstored, howner⟩

end

/-- Operations write no host bits. -/
theorem Event.Operates.admits_clear {e : Event} (h : e.Operates) :
    (Discipline.contents fun c => c.trunc = c).Admits e := by
  cases e with
  | start operation =>
    apply Discipline.contents_admits_start
    intro _ _ _ stage _ _
    exact stage.all_of_forall fun c => c.trunc_trunc
  | step i => trivial
  | serve request =>
    intro s _ hclear
    rw [Store.answer_of_isRead h]
    exact hclear

namespace System

/-- If every owned block is listed at first, it is so after any number of the events of a run in which
hosts take turns, whichever operations are abandoned and wherever. -/
theorem owners_listed (history : List Request) (events : List Event)
    (hindexed : (Store.empty.after history).Indexed) (he : ∀ e ∈ events, e.Operates)
    (hturns : (System.of (Store.empty.after history)).TakesTurns events) (k : Nat) :
    ((System.of (Store.empty.after history)).run (events.take k)).store.Indexed := by
  have hfiled : (Store.empty.after history).Filed := Store.filed_empty.after history
  have hserial := serial_of hfiled (hindexed.listed_of_owned hfiled) hturns
  have hclear : (Discipline.contents fun c => c.trunc = c).Kept
      ((System.of (Store.empty.after history)).run (events.take k)) :=
    (Discipline.kept_of hindexed.clear).run _ fun e hmem =>
      (he e (List.mem_of_mem_take hmem)).admits_clear
  exact Store.indexed_of_listed (filed_run hfiled _) hclear.1 fun howned =>
    hserial.listed_take he k howned

/-- A release is abandoned when it has deleted the record, and the next owner's block is listed. So is
it when a later claim of the first host is abandoned as well. -/
theorem owners_listed_of_abandoned :
    let cidr : Network := ⟨⟨.v4, 0x0A000000, by decide⟩, 26, by decide⟩
    let claim := Operation.claim (.block cidr)
    let events : List Event :=
      [.start (claim "first" ⟨false⟩), .step 0, .step 0, .start (.release 3 "first" cidr), .step 1,
        .step 1, .start (claim "second" ⟨false⟩), .step 2, .step 2, .start (claim "first" ⟨false⟩),
        .step 3, .step 3]
    let s := Store.empty.after []
    (s.Indexed ∧ (∀ e ∈ events, e.Operates) ∧ (System.of s).TakesTurns events) ∧
      ((System.of s).run (events.take 12)).store.Indexed ∧
      ((System.of s).run (events.take 12)).store.Owned (Block.pathOf cidr) "second" := by
  intro cidr claim events s
  have hnone : ∀ (p : String) (stored : Versioned Block), s.blocks[p]? ≠ some stored := by
    simp [s, Store.empty]
  have hindexed : s.Indexed :=
    ⟨fun p stored hs => absurd hs (hnone p stored), fun p stored _ hs => absurd hs (hnone p stored)⟩
  have he : ∀ e ∈ events, e.Operates := by decide +kernel
  have hturns : (System.of s).TakesTurns events := by decide +kernel
  refine ⟨⟨hindexed, he, hturns⟩, owners_listed [] events hindexed he hturns 12, ?_⟩
  decide +kernel

end System

end HostBlocks
