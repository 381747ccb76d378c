import HostBlocks.Proofs.History.Updates
import HostBlocks.Proofs.Listing.Scan

/-!
# Contents by history

What a store holds is decided by the calls that succeeded on it. The record of a block is what the last of
these on its path wrote, and its revision counts them from the last creation on. A call that fails
leaves the whole store as it is, and one that succeeds touches a single path. So as long as a record is
not deleted, nor updated as often as there are numbers, its path and its revision tell what it is.
-/
namespace HostBlocks

namespace Lineage

variable {stored : Versioned Block} {last : Option (Versioned Block)} {changes : List Change}

/-- Where no record stood at first, the one that stands now was created, and its revision says how often
it has been updated since. -/
theorem created_then_updated (h : Lineage none changes (some stored)) :
    ∃ earlier b later, changes = earlier ++ .created b :: later ∧ (∀ c ∈ later, c.isUpdate) ∧
      stored.revision.number = 1 + later.length % (2 ^ 64 - 1) := by
  rcases h.updates_or_created with hu | ⟨earlier, b, later, rfl, hu⟩
  · cases h with
    | cons hc rest =>
      cases hc
      cases hu _ List.mem_cons_self
  · obtain ⟨_, hlast, hnow⟩ := h.revision_since_created hu
    cases hlast
    refine ⟨earlier, b, later, rfl, hu, ?_⟩
    rw [hnow, Revision.number_iterate_initial]

theorem map_value_of_none (h : Lineage none changes last) :
    last.map Versioned.value = changes.getLast?.bind Change.value := by
  rw [h.map_value]
  cases changes.getLast? <;> rfl

end Lineage

namespace Store

variable {s : Store} {p : String}

/-- Affinity records are never updated. -/
theorem revision_of_affinity {calls : List Request} {record : Versioned Affinity}
    (hs : ∀ {record}, s.affinities[p]? = some record → record.revision = .initial)
    (h : (s.after calls).affinities[p]? = some record) : record.revision = .initial := by
  induction calls generalizing s with
  | nil => exact hs h
  | cons r calls ih =>
    refine ih (fun {record} hrecord => ?_) h
    rcases s.getElem?_affinities_answer p r with hsame | hnone | ⟨a, -, hnew⟩
    · exact hs (hsame.symm.trans hrecord)
    · cases hnone.symm.trans hrecord
    · cases hnew.symm.trans hrecord
      rfl

/-- An affinity record stays until it is deleted. -/
theorem affinity_stays {calls : List Request} {record : Versioned Affinity}
    (hs : s.affinities[p]? = some record) (hnot : ∀ a, .deleteAffinity a ∈ calls → a.path ≠ p) :
    (s.after calls).affinities[p]? = some record := by
  induction calls generalizing s with
  | nil => exact hs
  | cons r calls ih =>
    refine ih ?_ fun a ha => hnot a (List.mem_cons_of_mem r ha)
    by_cases hp : r.affinityPath = some p
    · cases r with
      | createAffinity a =>
        cases hp
        simp only [answer, createAffinity_of_present hs]
        exact hs
      | deleteAffinity a => exact absurd (Option.some.inj hp) (hnot a List.mem_cons_self)
      | getBlock | createBlock | updateBlock | deleteBlock | listAffinities => cases hp
    · rw [affinities_of_ne hp, hs]

theorem getBlock_eq_ok_iff {cidr : Network} {v : Versioned Block} :
    s.getBlock cidr = .ok v ↔ s.blocks[Block.pathOf cidr]? = some v := by
  unfold getBlock
  cases s.blocks[Block.pathOf cidr]? <;> simp

/-- Two reads of a path that find one revision find one record, if it was not deleted in between and its
revisions have not come round. -/
theorem reads_agree {cidr cidr' : Network} {v w : Versioned Block} {between : List Request}
    (hv : s.getBlock cidr = .ok v) (hw : (s.after between).getBlock cidr' = .ok w)
    (hpath : Block.pathOf cidr = Block.pathOf cidr')
    (hnot : .deleted ∉ s.changes (Block.pathOf cidr) between)
    (hfew : (s.changes (Block.pathOf cidr) between).length + 1 < 2 ^ 64)
    (hrevision : w.revision = v.revision) : w = v := by
  rw [getBlock_eq_ok_iff] at hv hw
  have hline := s.lineage (Block.pathOf cidr) between
  rw [hv, hpath, hw, ← hpath] at hline
  exact (hline.eq_of_revision_eq hrevision hnot hfew).2

/-- After any calls on an empty store: a block record stands under its own path, is what was written there
last, and is at the revision that counts the updates since it was created, round the numbers that there
are; an affinity record stands under its own path and is at the first revision; a further call changes
nothing if it fails and at most the record of its path if it succeeds; and two reads of a path at one
revision, with no deletion in between and fewer updates than there are revisions, find the same. -/
theorem contents_by_history (calls : List Request) :
    let s := empty.after calls
    (∀ p : String, s.blocks[p]?.map Versioned.value =
      (empty.changes p calls).getLast?.bind Change.value) ∧
    (∀ (p : String) (stored : Versioned Block), s.blocks[p]? = some stored → stored.value.path = p ∧
      ∃ earlier b later, empty.changes p calls = earlier ++ .created b :: later ∧
        (∀ c ∈ later, c.isUpdate) ∧ stored.revision.number = 1 + later.length % (2 ^ 64 - 1)) ∧
    (∀ (p : String) (record : Versioned Affinity), s.affinities[p]? = some record →
      record.value.path = p ∧ record.revision.number = 1) ∧
    (∀ r : Request, (∀ e, (s.answer r).1 = .error e → (s.answer r).2 = s) ∧
      (∀ p : String, r.blockPath ≠ some p → (s.answer r).2.blocks[p]? = s.blocks[p]?) ∧
      ∀ p : String, r.affinityPath ≠ some p → (s.answer r).2.affinities[p]? = s.affinities[p]?) ∧
    (∀ (cidr cidr' : Network) (between : List Request) (v w : Versioned Block),
      s.getBlock cidr = .ok v → (s.after between).getBlock cidr' = .ok w →
      Block.pathOf cidr = Block.pathOf cidr' →
      .deleted ∉ s.changes (Block.pathOf cidr) between →
      (s.changes (Block.pathOf cidr) between).length + 1 < 2 ^ 64 →
      v.revision.number = w.revision.number → v.value = w.value) ∧
    ∀ (f f' : AffinityFilter) (between : List Request) (v w : Versioned Affinity),
      v ∈ s.listAffinities f → w ∈ (s.after between).listAffinities f' →
      v.value.path = w.value.path →
      (∀ a, .deleteAffinity a ∈ between → a.path ≠ v.value.path) → v = w := by
  intro s
  have hfiled : s.Filed := filed_empty.after calls
  have hline : ∀ p : String, Lineage none (empty.changes p calls) s.blocks[p]? := fun p => by
    have hfirst : empty.blocks[p]? = none := by simp [empty]
    rw [← hfirst]
    exact empty.lineage p calls
  refine ⟨fun p => (hline p).map_value_of_none, fun p stored hs => ⟨hfiled.blocks hs, ?_⟩,
    fun p record hs => ⟨hfiled.affinities hs, ?_⟩, fun r => ⟨fun e => answer_of_error,
      fun p => blocks_of_ne, fun p => affinities_of_ne⟩, ?_, ?_⟩
  · have hp := hline p
    rw [hs] at hp
    exact hp.created_then_updated
  · have hinitial : record.revision = .initial := revision_of_affinity (s := empty) (by simp [empty]) hs
    rw [hinitial]
    rfl
  · intro cidr cidr' between v w hv hw hpath hnot hfew hnumber
    have hrevision : w.revision = v.revision := Revision.ext hnumber.symm
    rw [reads_agree hv hw hpath hnot hfew hrevision]
  · intro f f' between v w hv hw hpath hnot
    have hstored := ((hfiled.mem_listAffinities f v).1 hv).1
    have hnow := (((hfiled.after between).mem_listAffinities f' w).1 hw).1
    rw [← hpath, affinity_stays hstored hnot] at hnow
    exact Option.some.inj hnow

/-- A record is created, updated, deleted, created again and updated. Between two reads of it an old update
and a new creation are refused, and the block beside it is deleted. -/
theorem contents_by_history_of_renewed :
    let cidr : Network := ⟨⟨.v4, 0x0A000000, by decide⟩, 26, by decide⟩
    let beside : Network := ⟨⟨.v4, 0x0A000040, by decide⟩, 26, by decide⟩
    let mine : Block := .claimed cidr "mine" false
    let theirs : Block := .claimed cidr "theirs" true
    let calls : List Request :=
      [.createBlock mine, .createBlock (.of beside), .updateBlock ⟨mine.released, .initial⟩,
        .deleteBlock cidr, .createBlock theirs, .updateBlock ⟨theirs.released, .initial⟩]
    let s := empty.after calls
    let between : List Request :=
      [.updateBlock ⟨mine, .initial⟩, .createBlock mine, .deleteBlock beside]
    let now := s.after between
    (∃ earlier b later, empty.changes (Block.pathOf cidr) calls = earlier ++ .created b :: later ∧
      (∀ c ∈ later, c.isUpdate) ∧ 2 = 1 + later.length % (2 ^ 64 - 1)) ∧
    ∃ v w, s.getBlock cidr = .ok v ∧ now.getBlock cidr = .ok w ∧
      .deleted ∉ s.changes (Block.pathOf cidr) between ∧
      (s.changes (Block.pathOf cidr) between).length + 1 < 2 ^ 64 ∧ v.revision.number = 2 ∧
      w.revision.number = 2 ∧ v.value = w.value := by
  intro cidr beside mine theirs calls s between now
  obtain ⟨-, hstored, -, -, hreads, -⟩ := contents_by_history calls
  have hs : s.blocks[Block.pathOf cidr]? = some ⟨theirs.released, Revision.initial.next⟩ := by decide +kernel
  have hread : s.getBlock cidr = .ok ⟨theirs.released, Revision.initial.next⟩ := by decide +kernel
  have hagain : now.getBlock cidr = .ok ⟨theirs.released, Revision.initial.next⟩ := by decide +kernel
  have hnot : .deleted ∉ s.changes (Block.pathOf cidr) between := by decide +kernel
  have hfew : (s.changes (Block.pathOf cidr) between).length + 1 < 2 ^ 64 := by decide +kernel
  exact ⟨(hstored _ _ hs).2, _, _, hread, hagain, hnot, hfew, rfl, rfl,
    hreads cidr cidr between _ _ hread hagain rfl hnot hfew rfl⟩

end Store

end HostBlocks
