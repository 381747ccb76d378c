import HostBlocks.Proofs.Interleaving.Contents

/-!
# What claims and releases leave alone

A claim creates records without leases, and a release deletes a record only after it has read it
without leases. So while claims and releases are all that changes block records, a block with leases
keeps its record and its leases, and at most loses its owner; and a path without leases stays so. A
release that is about to delete a record therefore deletes one without leases, though not always the
one that it has read.
-/
namespace HostBlocks

/-- A start of an operation on networks without host bits, a call of a task, or another call that leaves
block records alone. -/
def Event.IsOrderly : Event → Prop
  | .start operation => operation.IsClear
  | .step _ => True
  | .serve request => request.change = none

instance : DecidablePred Event.IsOrderly
  | .start operation => inferInstanceAs (Decidable operation.IsClear)
  | .step _ => inferInstanceAs (Decidable True)
  | .serve request => inferInstanceAs (Decidable (request.change = none))

namespace Store

/-- No address is leased from the block at the path, whether or not it has a record. -/
def Vacant (s : Store) (p : String) : Prop :=
  ∀ stored, s.blocks[p]? = some stored → stored.value.isEmpty

/-- Leases are as before, and a block with leases has the owner it had or none. -/
structure Spares (s s' : Store) : Prop where
  vacant : ∀ {p : String}, s.Vacant p → s'.Vacant p
  leased : ∀ {p : String} {stored : Versioned Block}, s.blocks[p]? = some stored →
    ¬stored.value.isEmpty → ∃ stored', s'.blocks[p]? = some stored' ∧ ¬stored'.value.isEmpty ∧
      (stored'.value.affinity = stored.value.affinity ∨ stored'.value.affinity = none)

variable {s s' : Store} {path : String} {stored new : Versioned Block}

theorem spares_of_blocks_eq (h : s'.blocks = s.blocks) : s.Spares s' where
  vacant hv stored hs := hv stored (by rw [← h, hs])
  leased hs he := ⟨_, by rw [h, hs], he, Or.inl rfl⟩

theorem spares_create (h : s.blocks[path]? = none) (hnew : new.value.isEmpty) :
    s.Spares { s with blocks := s.blocks.insert path new } where
  vacant {p} hv stored hs := by
    by_cases hp : p = path
    · subst hp
      rw [Std.ExtTreeMap.getElem?_insert_self] at hs
      cases hs
      exact hnew
    · rw [getElem?_insert_of_ne hp] at hs
      exact hv stored hs
  leased {p stored} hs he := by
    have hp : p ≠ path := by
      rintro rfl
      cases h.symm.trans hs
    exact ⟨stored, (getElem?_insert_of_ne hp).trans hs, he, Or.inl rfl⟩

theorem spares_delete (h : s.Vacant path) :
    s.Spares { s with blocks := s.blocks.erase path } where
  vacant {p} hv stored hs := by
    by_cases hp : p = path
    · subst hp
      rw [Std.ExtTreeMap.getElem?_erase_self] at hs
      cases hs
    · rw [getElem?_erase_of_ne hp] at hs
      exact hv stored hs
  leased {p stored} hs he := by
    have hp : p ≠ path := by
      rintro rfl
      exact he (h stored hs)
    exact ⟨stored, (getElem?_erase_of_ne hp).trans hs, he, Or.inl rfl⟩

theorem spares_disown (h : s.blocks[path]? = some stored) (he : ¬stored.value.isEmpty)
    (hnew : ¬new.value.isEmpty) (howner : new.value.affinity = none) :
    s.Spares { s with blocks := s.blocks.insert path new } where
  vacant {p} hv other hs := by
    have hp : p ≠ path := by
      rintro rfl
      exact he (hv stored h)
    rw [getElem?_insert_of_ne hp] at hs
    exact hv other hs
  leased {p other} hs hother := by
    by_cases hp : p = path
    · subst hp
      exact ⟨new, Std.ExtTreeMap.getElem?_insert_self, hnew, Or.inr howner⟩
    · exact ⟨other, (getElem?_insert_of_ne hp).trans hs, hother, Or.inl rfl⟩

end Store

theorem Claim.Move.spares {host : String} {policy : Policy} {s s' : Store}
    {stage stage' : Claim.Stage} (h : Claim.Move host policy s stage stage' s') : s.Spares s' := by
  cases h with
  | taken | free | present | own | lost | gone => exact Store.spares_of_blocks_eq rfl
  | recorded => exact Store.spares_of_blocks_eq Store.blocks_createAffinity
  | withdrawn => exact Store.spares_of_blocks_eq Store.blocks_deleteAffinity
  | created hs => exact Store.spares_create hs Std.ExtTreeSet.isEmpty_empty

namespace Release.Stage

def Knows (host : String) (cidr : Network) (s : Store) : Stage → Prop
  | deleting => s.Vacant (Block.pathOf cidr)
  | clearing read _ => read.value.path = Block.pathOf cidr ∧ ¬read.value.isEmpty ∧
    ∃ stored, s.blocks[Block.pathOf cidr]? = some stored ∧ ¬stored.value.isEmpty ∧
      ¬stored.value.isOwnedByOther host
  | _ => True

variable {bound : Nat} {host : String} {cidr : Network} {s s' : Store} {stage stage' : Stage}

theorem Knows.spares (h : stage.Knows host cidr s) (hs : s.Spares s') :
    stage.Knows host cidr s' := by
  cases stage with
  | reading | cleaning | returned => trivial
  | deleting => exact hs.vacant h
  | clearing read left =>
    obtain ⟨hpath, hread, stored, hstored, he, howner⟩ := h
    obtain ⟨stored', hstored', he', howner'⟩ := hs.leased hstored he
    refine ⟨hpath, hread, stored', hstored', he', ?_⟩
    rw [Block.isOwnedByOther_iff] at howner ⊢
    rcases howner' with heq | hnone
    · rw [heq]
      exact howner
    · simp [hnone]

theorem knows_round (left : Nat) : (round bound cidr left).Knows host cidr s := by
  cases left <;> trivial

theorem Knows.move (hfiled : s.Filed) (h : stage.Knows host cidr s)
    (hm : Move bound host cidr s stage stage' s') : stage'.Knows host cidr s' ∧ s.Spares s' := by
  cases hm with
  | missing | foreign | absent | vanished => exact ⟨trivial, Store.spares_of_blocks_eq rfl⟩
  | empty hs ho he =>
    refine ⟨fun stored hstored => ?_, Store.spares_of_blocks_eq rfl⟩
    cases hs.symm.trans hstored
    exact he
  | leased hs ho he =>
    exact ⟨⟨hfiled.blocks hs, he, _, hs, he, ho⟩, Store.spares_of_blocks_eq rfl⟩
  | deleted hs => exact ⟨trivial, Store.spares_delete h⟩
  | cleared hs hr =>
    obtain ⟨hpath, hread, stored, hstored, he, -⟩ := h
    rw [hpath]
    exact ⟨trivial, Store.spares_disown hstored he hread rfl⟩
  | conflict => exact ⟨knows_round _, Store.spares_of_blocks_eq rfl⟩
  | cleaned => exact ⟨trivial, Store.spares_of_blocks_eq Store.blocks_deleteAffinity⟩

end Release.Stage

namespace Task

inductive IsOrderly (s : Store) : Task → Prop
  | claim {target : Target} {policy : Policy} {host : String} {stage : Claim.Stage}
      (h : stage.IsClear) : IsOrderly s (claiming target policy host stage)
  | release {bound : Nat} {host : String} {cidr : Network} {stage : Release.Stage}
      (h : stage.Knows host cidr s) : IsOrderly s (releasing bound host cidr stage)

variable {t : Task} {s s' : Store}

theorem isOrderly_of {operation : Operation} (h : operation.IsClear) (s : Store) :
    (of operation).IsOrderly s := by
  cases operation with
  | claim target host policy =>
    obtain ⟨stage, hstarts, hof⟩ := of_claim target policy host
    rw [hof]
    exact .claim (hstarts.isClear h)
  | release bound host cidr =>
    rw [of_release]
    exact .release (Release.Stage.knows_round bound)

theorem IsOrderly.spares (h : t.IsOrderly s) (hs : s.Spares s') : t.IsOrderly s' := by
  cases h with
  | claim h => exact .claim h
  | release h => exact .release (h.spares hs)

theorem IsOrderly.step (hfiled : s.Filed) (h : t.IsOrderly s) :
    (t.step s).1.IsOrderly (t.step s).2 ∧ s.Spares (t.step s).2 := by
  cases h with
  | @claim target policy host stage h =>
    obtain ⟨stage', s', hstep, hmove | ⟨-, rfl, rfl⟩⟩ := step_claiming target policy host stage s
    · rw [hstep]
      exact ⟨.claim (h.move hmove), hmove.spares⟩
    · rw [hstep]
      exact ⟨.claim h, Store.spares_of_blocks_eq rfl⟩
  | @release bound host cidr stage h =>
    obtain ⟨stage', s', hstep, hmove | ⟨-, rfl, rfl⟩⟩ := step_releasing bound host cidr stage s
    · rw [hstep]
      obtain ⟨h', hspares⟩ := h.move hfiled hmove
      exact ⟨.release h', hspares⟩
    · rw [hstep]
      exact ⟨.release h, Store.spares_of_blocks_eq rfl⟩

end Task

def Discipline.orderly : Discipline where
  sound := Store.Filed
  moves s s' := s.Spares s' ∧ (s.Filed → s'.Filed)
  holds t s := t.IsOrderly s
  sound_of_moves hs h := h.2 hs
  stable _ hs h := h.spares hs.1
  step hs h := ⟨(h.step hs).1, (h.step hs).2, Task.filed_step _⟩

theorem Event.IsOrderly.admits {e : Event} (h : e.IsOrderly) : Discipline.orderly.Admits e := by
  cases e with
  | start operation => exact fun s _ => Task.isOrderly_of h s
  | step i => trivial
  | serve request =>
    intro s _
    exact ⟨Store.spares_of_blocks_eq (Store.blocks_of_change_none h), fun hs => hs.answer request⟩

end HostBlocks
