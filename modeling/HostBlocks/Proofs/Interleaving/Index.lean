import HostBlocks.Proofs.Interleaving.Turns
import HostBlocks.Proofs.Interleaving.Vacancy
import HostBlocks.Proofs.Names.Paths

/-!
# The index of owned blocks

Affinity records are an index of the block records that have an owner. A claim writes the index first
and a release writes it last, and each operation touches only the entries of its own host. So while
hosts take turns, an owned block is listed at every moment, wherever an operation is abandoned.
-/
namespace HostBlocks

namespace Store

section

variable (s : Store) (path host : String)

def Owned : Prop := ∃ stored, s.blocks[path]? = some stored ∧ stored.value.affinity = some host

def Listed : Prop :=
  ∃ (p : String) (record : Versioned Affinity), s.affinities[p]? = some record ∧
    record.value.host = host ∧ Block.pathOf record.value.cidr = path

instance : Decidable (s.Owned path host) :=
  inferInstanceAs (Decidable (∃ stored ∈ s.blocks[path]?, stored.value.affinity = some host))

instance : Decidable (s.Listed path host) :=
  decidable_of_iff
    (∃ row ∈ s.affinities.toList, row.2.value.host = host ∧ Block.pathOf row.2.value.cidr = path)
    (by simp [Listed, Std.ExtTreeMap.mem_toList_iff_getElem?_eq_some])

end

variable {s s' : Store} {path host : String} {a : Affinity} {new : Versioned Block}

theorem owned_of_blocks_eq (h : s'.blocks = s.blocks) : s'.Owned path host ↔ s.Owned path host := by
  rw [Owned, Owned, h]

theorem listed_of_affinities_eq (h : s'.affinities = s.affinities) :
    s'.Listed path host ↔ s.Listed path host := by
  rw [Listed, Listed, h]

theorem owned_createAffinity : (s.createAffinity a).2.Owned path host ↔ s.Owned path host :=
  owned_of_blocks_eq blocks_createAffinity

theorem owned_deleteAffinity : (s.deleteAffinity a).2.Owned path host ↔ s.Owned path host :=
  owned_of_blocks_eq blocks_deleteAffinity

theorem owned_insert {p : String} :
    ({ s with blocks := s.blocks.insert p new } : Store).Owned path host ↔
      if path = p then new.value.affinity = some host else s.Owned path host := by
  split
  · next h =>
    subst h
    simp [Owned]
  · next h => simp only [Owned, getElem?_insert_of_ne h]

theorem owned_erase {p : String} :
    ({ s with blocks := s.blocks.erase p } : Store).Owned path host ↔
      path ≠ p ∧ s.Owned path host := by
  by_cases h : path = p
  · subst h
    simp [Owned]
  · simp only [Owned, getElem?_erase_of_ne h, ne_eq, h, not_false_eq_true, true_and]

theorem not_owned_of_absent (h : s.blocks[path]? = none) : ¬s.Owned path host := by
  rintro ⟨stored, hstored, -⟩
  cases h.symm.trans hstored

theorem owned_iff {stored : Versioned Block} (h : s.blocks[path]? = some stored) :
    s.Owned path host ↔ stored.value.affinity = some host := by
  simp [Owned, h]

/-- The affinity record of a host for a block is the one under its path. -/
theorem Filed.listed_iff (h : s.Filed) :
    s.Listed (Block.pathOf a.cidr) a.host ↔ ∃ record, s.affinities[a.path]? = some record := by
  constructor
  · rintro ⟨p, record, hrecord, hhost, hpath⟩
    refine ⟨record, ?_⟩
    rw [← Affinity.path_eq_iff.2 ⟨hhost, hpath⟩, h.affinities hrecord]
    exact hrecord
  · rintro ⟨record, hrecord⟩
    obtain ⟨hhost, hpath⟩ := Affinity.path_eq_iff.1 (h.affinities hrecord)
    exact ⟨_, record, hrecord, hhost, hpath⟩

theorem listed_createAffinity (h : s.Filed) :
    (s.createAffinity a).2.Listed path host ↔
      s.Listed path host ∨ a.host = host ∧ Block.pathOf a.cidr = path := by
  cases hs : s.affinities[a.path]? with
  | some record =>
    have hlisted := h.listed_iff.2 ⟨record, hs⟩
    simp only [createAffinity, hs]
    constructor
    · exact Or.inl
    · rintro (hl | ⟨rfl, rfl⟩)
      · exact hl
      · exact hlisted
  | none =>
    simp only [createAffinity, hs, Listed, Std.ExtTreeMap.getElem?_insert]
    constructor
    · rintro ⟨p, record, hrecord, hhost, hpath⟩
      split at hrecord
      · cases hrecord
        exact Or.inr ⟨hhost, hpath⟩
      · exact Or.inl ⟨p, record, hrecord, hhost, hpath⟩
    · rintro (⟨p, record, hrecord, hhost, hpath⟩ | ⟨hhost, hpath⟩)
      · refine ⟨p, record, ?_, hhost, hpath⟩
        rw [if_neg, hrecord]
        intro hp
        rw [Std.LawfulEqCmp.compare_eq_iff_eq] at hp
        rw [hp, hrecord] at hs
        cases hs
      · exact ⟨a.path, ⟨a, .initial⟩, by simp, hhost, hpath⟩

theorem listed_deleteAffinity (h : s.Filed) :
    (s.deleteAffinity a).2.Listed path host ↔
      s.Listed path host ∧ ¬(a.host = host ∧ Block.pathOf a.cidr = path) := by
  have hfiled : (s.deleteAffinity a).2.Filed := h.answer (.deleteAffinity a)
  have hgone : ¬(s.deleteAffinity a).2.Listed (Block.pathOf a.cidr) a.host := by
    rw [hfiled.listed_iff, getElem?_deleteAffinity]
    simp
  by_cases hsame : a.host = host ∧ Block.pathOf a.cidr = path
  · obtain ⟨rfl, rfl⟩ := hsame
    simp [hgone]
  · rw [and_iff_left hsame]
    simp only [deleteAffinity]
    split
    · simp only [Listed, Std.ExtTreeMap.getElem?_erase]
      constructor
      · rintro ⟨p, record, hrecord, hrest⟩
        split at hrecord
        · cases hrecord
        · exact ⟨p, record, hrecord, hrest⟩
      · rintro ⟨p, record, hrecord, hhost, hpath⟩
        refine ⟨p, record, ?_, hhost, hpath⟩
        rw [if_neg, hrecord]
        intro hp
        rw [Std.LawfulEqCmp.compare_eq_iff_eq] at hp
        rw [← hp] at hrecord
        obtain ⟨hhost', hpath'⟩ := Affinity.path_eq_iff.1 (h.affinities hrecord)
        exact hsame ⟨hhost'.symm.trans hhost, hpath'.symm.trans hpath⟩
    · exact Iff.rfl

end Store

end HostBlocks
