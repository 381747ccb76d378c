import HostBlocks.Proofs.History.Changes
import Mathlib.Logic.Function.Iterate

/-!
# What an update notices

An update compares revisions. While a record lives no revision comes twice, unless it is updated as often
as there are numbers, so an update from a read that is out of date is refused. A record that is deleted
and created again counts from the first revision, and once it has been updated as often as the record
that was read, an update from that read goes through although it belongs to the record before.
-/
namespace HostBlocks

namespace Revision

theorem number_iterate_next (r : Revision) (k : Nat) :
    (next^[k] r).number = (r.number - 1 + k) % (2 ^ 64 - 1) + 1 := by
  have hpos := r.number_pos
  have hlt := r.number_lt
  induction k with
  | zero =>
    rw [Function.iterate_zero_apply, Nat.add_zero, Nat.mod_eq_of_lt (by omega)]
    omega
  | succ k ih =>
    rw [Function.iterate_succ_apply', number_next, ih]
    split <;> omega

theorem number_iterate_initial (k : Nat) :
    (next^[k] initial).number = 1 + k % (2 ^ 64 - 1) := by
  rw [number_iterate_next, initial, Nat.sub_self, Nat.zero_add, Nat.add_comm]

/-- A revision comes again when the numbers have gone round, and not before. -/
theorem iterate_next_eq_iff (r : Revision) (k : Nat) : next^[k] r = r ↔ 2 ^ 64 - 1 ∣ k := by
  have hpos := r.number_pos
  have hlt := r.number_lt
  rw [Revision.ext_iff, number_iterate_next]
  omega

end Revision

namespace Change

def isUpdate : Change → Bool
  | updated _ => true
  | _ => false

/-- The changes end with a new record that has been updated up to the revision `n`. -/
def Renewed (changes : List Change) (n : Nat) : Prop :=
  ∃ earlier b later, changes = earlier ++ deleted :: created b :: later ∧
    (∀ c ∈ later, c.isUpdate) ∧ later.length + 1 = n

/-- The updates that the changes end with are fewer than the revisions, so their numbers do not come
round to where they began. -/
def Unwrapped (changes : List Change) : Prop :=
  ∀ front later, changes = front ++ later → (∀ c ∈ later, c.isUpdate) → later.length + 1 < 2 ^ 64

theorem unwrapped_of_length {changes : List Change} (h : changes.length + 1 < 2 ^ 64) :
    Unwrapped changes := by
  rintro front later rfl -
  rw [List.length_append] at h
  omega

end Change

namespace Lineage

variable {read stored : Versioned Block} {first last : Option (Versioned Block)}
  {changes : List Change}

/-- An update takes a record to the next revision. -/
theorem revision_of_updates (h : Lineage (some read) changes last)
    (hu : ∀ c ∈ changes, c.isUpdate) :
    ∃ stored, last = some stored ∧
      stored.revision = Revision.next^[changes.length] read.revision := by
  induction changes generalizing read with
  | nil =>
    cases h
    exact ⟨read, rfl, rfl⟩
  | cons c changes ih =>
    cases h with
    | cons hc rest =>
      cases hc with
      | updated _ value => exact ih rest fun c hc => hu c (List.mem_cons_of_mem _ hc)
      | deleted => cases hu _ List.mem_cons_self

/-- A record counts its updates from the first revision on. -/
theorem revision_since_created {earlier later : List Change} {b : Block}
    (h : Lineage first (earlier ++ .created b :: later) last) (hu : ∀ c ∈ later, c.isUpdate) :
    ∃ stored, last = some stored ∧
      stored.revision = Revision.next^[later.length] .initial := by
  obtain ⟨mid, -, hmid⟩ := append_iff.1 h
  cases hmid with
  | cons hcreated rest =>
    cases hcreated
    exact rest.revision_of_updates hu

theorem eq_concat_deleted (h : Lineage (some read) changes none) :
    ∃ earlier, changes = earlier ++ [.deleted] := by
  cases changes using List.reverseRecOn with
  | nil => cases h
  | append_singleton earlier c =>
    obtain ⟨mid, -, hc⟩ := concat_iff.1 h
    cases hc
    exact ⟨earlier, rfl⟩

/-- A record that stands after the changes has been updated only, or was created by one of them and
updated only from then on. -/
theorem updates_or_created (h : Lineage first changes (some stored)) :
    (∀ c ∈ changes, c.isUpdate) ∨
      ∃ earlier b later, changes = earlier ++ .created b :: later ∧ ∀ c ∈ later, c.isUpdate := by
  induction changes using List.reverseRecOn generalizing stored with
  | nil => exact Or.inl nofun
  | append_singleton changes c ih =>
    obtain ⟨mid, hfront, hc⟩ := concat_iff.1 h
    cases hc with
    | created b => exact Or.inr ⟨changes, b, [], rfl, nofun⟩
    | updated mid value =>
      have hlater : ∀ l : List Change, (∀ c ∈ l, c.isUpdate) →
          ∀ c ∈ l ++ [.updated value], c.isUpdate := by
        intro l hl c hc
        rcases List.mem_append.1 hc with hc | hc
        · exact hl c hc
        · rw [List.mem_singleton.1 hc]
          rfl
      rcases ih hfront with hu | ⟨earlier, b, later, rfl, hu⟩
      · exact Or.inl (hlater changes hu)
      · exact Or.inr ⟨earlier, b, later ++ [.updated value], by simp, hlater later hu⟩

theorem updates_or_renewal (h : Lineage (some read) changes (some stored)) :
    (∀ c ∈ changes, c.isUpdate) ∨
      ∃ earlier b later, changes = earlier ++ .deleted :: .created b :: later ∧
        ∀ c ∈ later, c.isUpdate := by
  rcases h.updates_or_created with hu | ⟨earlier, b, later, rfl, hu⟩
  · exact Or.inl hu
  · obtain ⟨mid, hfront, hback⟩ := append_iff.1 h
    cases hback with
    | cons hcreated _ =>
      cases hcreated
      obtain ⟨before, rfl⟩ := hfront.eq_concat_deleted
      exact Or.inr ⟨before, b, later, by simp, hu⟩

/-- A record whose numbers have not come round is at the revision of an earlier read if nothing has
changed, or if it is another record that has been updated as often. -/
theorem same_revision_iff (h : Lineage (some read) changes last) (hunwrapped : Change.Unwrapped changes) :
    (∃ stored, last = some stored ∧ stored.revision = read.revision) ↔
      changes = [] ∨ Change.Renewed changes read.revision.number := by
  constructor
  · rintro ⟨stored, rfl, hrevision⟩
    rcases h.updates_or_renewal with hu | ⟨earlier, b, later, rfl, hu⟩
    · obtain ⟨_, hlast, hnow⟩ := h.revision_of_updates hu
      cases hlast
      have hround : 2 ^ 64 - 1 ∣ changes.length :=
        (Revision.iterate_next_eq_iff _ _).1 (hnow.symm.trans hrevision)
      have hfew := hunwrapped [] changes rfl hu
      exact Or.inl (List.eq_nil_of_length_eq_zero (Nat.eq_zero_of_dvd_of_lt hround (by omega)))
    · have hfew := hunwrapped (earlier ++ [.deleted, .created b]) later (by simp) hu
      rw [List.append_cons] at h
      obtain ⟨_, hlast, hnow⟩ := h.revision_since_created hu
      cases hlast
      refine Or.inr ⟨earlier, b, later, rfl, hu, ?_⟩
      rw [← hrevision, hnow, Revision.number_iterate_initial, Nat.mod_eq_of_lt (by omega),
        Nat.add_comm]
  · rintro (rfl | ⟨earlier, b, later, rfl, hu, hlength⟩)
    · cases h
      exact ⟨read, rfl, rfl⟩
    · have hlt := read.revision.number_lt
      rw [List.append_cons] at h
      obtain ⟨stored, hlast, hnow⟩ := h.revision_since_created hu
      refine ⟨stored, hlast, Revision.ext ?_⟩
      rw [hnow, Revision.number_iterate_initial, Nat.mod_eq_of_lt (by omega), ← hlength, Nat.add_comm]

/-- A record that is at the revision of an earlier read, and since then has been neither deleted nor
updated as often as there are numbers, is what was read. -/
theorem eq_of_revision_eq (h : Lineage (some read) changes (some stored))
    (hrevision : stored.revision = read.revision) (hnot : .deleted ∉ changes)
    (hfew : changes.length + 1 < 2 ^ 64) : changes = [] ∧ stored = read := by
  rcases (h.same_revision_iff (Change.unwrapped_of_length hfew)).1 ⟨stored, rfl, hrevision⟩ with
    rfl | ⟨earlier, b, later, rfl, -⟩
  · cases h
    exact ⟨rfl, rfl⟩
  · exact absurd (List.mem_append_right earlier List.mem_cons_self) hnot

end Lineage

namespace Store

/-- The call answers with the block record `v`. -/
def Returns (s : Store) (r : Request) (v : Versioned Block) : Prop :=
  match r with
  | .getBlock cidr => s.getBlock cidr = .ok v
  | .createBlock b => (s.createBlock b).1 = .ok v
  | .updateBlock w => (s.updateBlock w).1 = .ok v
  | _ => False

theorem updateBlock_isOk_iff (s : Store) (v : Versioned Block) :
    (s.updateBlock v).1.isOk ↔
      ∃ stored, s.blocks[v.value.path]? = some stored ∧ stored.revision = v.revision := by
  cases hs : s.blocks[v.value.path]? with
  | none => simp [updateBlock_of_absent hs, Except.isOk, Except.toBool]
  | some stored =>
    by_cases hr : v.revision = stored.revision
    · simp [updateBlock_of_current hs hr, Except.isOk, Except.toBool, hr]
    · simp [updateBlock_of_stale hs hr, Except.isOk, Except.toBool, Ne.symm hr]

theorem updateBlock_of_not_isOk {s : Store} {v : Versioned Block} (h : ¬(s.updateBlock v).1.isOk) :
    (s.updateBlock v).2 = s := by
  rcases answer_cases (s := s) (r := .updateBlock v) rfl with ⟨hok, -⟩ | ⟨-, hsame⟩
  · exact absurd hok h
  · exact hsame

/-- What a call returns is what stands at its path then. -/
theorem getElem?_of_returns {s : Store} (hs : s.Filed) {r : Request} {v : Versioned Block}
    (h : s.Returns r v) : (s.answer r).2.blocks[v.value.path]? = some v := by
  cases r with
  | getBlock cidr =>
    cases hget : s.blocks[Block.pathOf cidr]? with
    | none => simp [Returns, getBlock, hget] at h
    | some found =>
      simp only [Returns, getBlock, hget, Except.ok.injEq] at h
      subst h
      rw [hs.blocks hget]
      exact hget
  | createBlock b =>
    cases hb : s.blocks[b.path]? with
    | none =>
      simp only [Returns, createBlock_of_absent hb, Except.ok.injEq] at h
      subst h
      simp [answer, createBlock_of_absent hb]
    | some stored => simp [Returns, createBlock_of_present hb] at h
  | updateBlock w =>
    cases hw : s.blocks[w.value.path]? with
    | none => simp [Returns, updateBlock_of_absent hw] at h
    | some stored =>
      by_cases hr : w.revision = stored.revision
      · simp only [Returns, updateBlock_of_current hw hr, Except.ok.injEq] at h
        subst h
        simp [answer, updateBlock_of_current hw hr]
      · simp [Returns, updateBlock_of_stale hw hr] at h
  | deleteBlock | createAffinity | deleteAffinity | listAffinities => exact h.elim

/-- Unless the revisions have come round, an update made from an earlier read goes through exactly if the
record has not changed since, or has been deleted and created again and then updated up to the revision
of the read. An update that is refused changes nothing. -/
theorem update_from_read (before between : List Request) (r : Request) (read : Versioned Block)
    (value : Block) (hread : (empty.after before).Returns r read)
    (hcidr : value.cidr = read.value.cidr) :
    let since := ((empty.after before).answer r).2
    let now := empty.after (before ++ r :: between)
    (Change.Unwrapped (since.changes value.path between) →
      ((now.updateBlock ⟨value, read.revision⟩).1.isOk ↔
        since.changes value.path between = [] ∨
          Change.Renewed (since.changes value.path between) read.revision.number)) ∧
    (¬(now.updateBlock ⟨value, read.revision⟩).1.isOk →
      (now.updateBlock ⟨value, read.revision⟩).2 = now) := by
  intro since now
  have hpath : value.path = read.value.path := congrArg Block.pathOf hcidr
  have hstored : since.blocks[value.path]? = some read := by
    rw [hpath]
    exact getElem?_of_returns (filed_empty.after before) hread
  have hnow : now = since.after between := after_append empty before (r :: between)
  have hline : Lineage (some read) (since.changes value.path between) now.blocks[value.path]? := by
    rw [hnow, ← hstored]
    exact since.lineage value.path between
  refine ⟨fun hunwrapped => ?_, updateBlock_of_not_isOk⟩
  rw [updateBlock_isOk_iff]
  exact hline.same_revision_iff hunwrapped

theorem update_from_read_of_created :
    let cidr : Network := ⟨⟨.v4, 0x0A000000, by decide⟩, 26, by decide⟩
    let mine : Versioned Block := ⟨.claimed cidr "mine" false, .initial⟩
    let since := (empty.answer (.createBlock mine.value)).2
    let now := empty.after ([] ++ .createBlock mine.value :: [.deleteBlock cidr])
    ((empty.after []).Returns (.createBlock mine.value) mine ∧ mine.value.cidr = mine.value.cidr ∧
      Change.Unwrapped (since.changes mine.value.path [.deleteBlock cidr])) ∧
    ((now.updateBlock ⟨mine.value, mine.revision⟩).1.isOk ↔
      since.changes mine.value.path [.deleteBlock cidr] = [] ∨
        Change.Renewed (since.changes mine.value.path [.deleteBlock cidr]) mine.revision.number) ∧
    (¬(now.updateBlock ⟨mine.value, mine.revision⟩).1.isOk →
      (now.updateBlock ⟨mine.value, mine.revision⟩).2 = now) := by
  intro cidr mine since now
  have hread : (empty.after []).Returns (.createBlock mine.value) mine := by
    show (empty.createBlock mine.value).1 = .ok mine
    decide +kernel
  have hunwrapped : Change.Unwrapped (since.changes mine.value.path [.deleteBlock cidr]) :=
    Change.unwrapped_of_length (by decide +kernel)
  obtain ⟨hiff, hrefused⟩ := update_from_read [] [.deleteBlock cidr] _ mine mine.value hread rfl
  exact ⟨⟨hread, rfl, hunwrapped⟩, hiff hunwrapped, hrefused⟩

/-- The block is read when one host owns it, deleted, and claimed by another host. The update from the
old read goes through, and the block belongs to the first host again. -/
theorem update_overwrites_renewed :
    let cidr : Network := ⟨⟨.v4, 0x0A000000, by decide⟩, 26, by decide⟩
    let mine : Versioned Block := ⟨.claimed cidr "mine" false, .initial⟩
    let theirs : Versioned Block := ⟨.claimed cidr "theirs" false, .initial⟩
    let since := (empty.answer (.createBlock mine.value)).2
    let between : List Request := [.deleteBlock cidr, .createBlock theirs.value]
    let now := since.after between
    empty.Returns (.createBlock mine.value) mine ∧
      since.changes mine.value.path between = [.deleted, .created theirs.value] ∧
      now.getBlock cidr = .ok theirs ∧
      (now.updateBlock mine).1.isOk ∧
      (now.updateBlock mine).2.getBlock cidr = .ok ⟨mine.value, mine.revision.next⟩ := by
  intro cidr mine theirs since between now
  refine ⟨?_, ?_, ?_, ?_, ?_⟩
  · show (empty.createBlock mine.value).1 = .ok mine
    decide +kernel
  · decide +kernel
  · decide +kernel
  · decide +kernel
  · decide +kernel

end Store

end HostBlocks
