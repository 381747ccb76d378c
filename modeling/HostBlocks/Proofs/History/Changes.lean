import HostBlocks.Program
import Mathlib.Data.List.Induction

/-!
# The history of a record

The calls that succeed on a path decide what stands there. A record is created where there is none, an
update takes it to the next revision, and what is created after a deletion starts again at the first.
So the changes of a path are a chain from one record to the next, whoever makes them and whatever
happens on other paths between them.
-/
namespace HostBlocks

/-- What a call that succeeds does to the record at its path. -/
inductive Change where
  | created (value : Block)
  | updated (value : Block)
  | deleted
deriving DecidableEq

namespace Change

inductive Turns : Change → Option (Versioned Block) → Option (Versioned Block) → Prop
  | created (value : Block) : Turns (created value) none (some ⟨value, .initial⟩)
  | updated (stored : Versioned Block) (value : Block) :
      Turns (updated value) (some stored) (some ⟨value, stored.revision.next⟩)
  | deleted (stored : Versioned Block) : Turns deleted (some stored) none

def value : Change → Option Block
  | created value => some value
  | updated value => some value
  | deleted => none

theorem Turns.map_value {c : Change} {first last : Option (Versioned Block)} (h : c.Turns first last) :
    last.map Versioned.value = c.value := by
  cases h <;> rfl

end Change

def Request.change : Request → Option (String × Change)
  | .createBlock b => some (b.path, .created b)
  | .updateBlock v => some (v.value.path, .updated v.value)
  | .deleteBlock cidr => some (Block.pathOf cidr, .deleted)
  | _ => none

def Request.blockPath (r : Request) : Option String := r.change.map Prod.fst

def Request.affinityPath : Request → Option String
  | .createAffinity a => some a.path
  | .deleteAffinity a => some a.path
  | _ => none

theorem Request.path_of_change {r : Request} {path : String} {c : Change} {b : Block}
    (h : r.change = some (path, c)) (hb : c.value = some b) : b.path = path := by
  cases r with
  | createBlock | updateBlock =>
    cases h
    cases hb
    rfl
  | deleteBlock =>
    cases h
    cases hb
  | getBlock | createAffinity | deleteAffinity | listAffinities => cases h

namespace Store

def effect (s : Store) (p : String) (r : Request) : Option Change :=
  match r.change with
  | some (path, c) => if path = p ∧ (s.answer r).1.isOk then some c else none
  | none => none

def after (s : Store) (calls : List Request) : Store :=
  calls.foldl (fun s r => (s.answer r).2) s

/-- The changes that calls make at the path `p`, in order. -/
def changes (s : Store) (p : String) : List Request → List Change
  | [] => []
  | r :: calls => (s.effect p r).toList ++ changes (s.answer r).2 p calls

variable (s : Store) (p : String) {r : Request} {c : Change}

@[simp] theorem after_nil : s.after [] = s := rfl

@[simp] theorem after_cons (r : Request) (calls : List Request) :
    s.after (r :: calls) = (s.answer r).2.after calls := rfl

theorem after_append (front back : List Request) :
    s.after (front ++ back) = (s.after front).after back := by
  simp [after]

variable {s p}

theorem blocks_of_change_none (h : r.change = none) : (s.answer r).2.blocks = s.blocks := by
  cases r with
  | getBlock | listAffinities => rfl
  | createAffinity a => exact blocks_createAffinity
  | deleteAffinity a => exact blocks_deleteAffinity
  | createBlock | updateBlock | deleteBlock => cases h

/-- A call that can change a path makes its change there or, if it fails, none anywhere. -/
theorem answer_cases {path : String} (h : r.change = some (path, c)) :
    ((s.answer r).1.isOk ∧ c.Turns s.blocks[path]? (s.answer r).2.blocks[path]? ∧
      ∀ p ≠ path, (s.answer r).2.blocks[p]? = s.blocks[p]?) ∨
    ¬(s.answer r).1.isOk ∧ (s.answer r).2 = s := by
  cases r with
  | getBlock | createAffinity | deleteAffinity | listAffinities => cases h
  | createBlock b =>
    cases h
    cases hs : s.blocks[b.path]? with
    | none =>
      refine Or.inl ?_
      simp only [answer, createBlock_of_absent hs, Std.ExtTreeMap.getElem?_insert_self]
      exact ⟨rfl, .created b, fun p hp => getElem?_insert_of_ne hp⟩
    | some stored =>
      refine Or.inr ?_
      simp [answer, createBlock_of_present hs, Except.isOk, Except.toBool]
  | updateBlock v =>
    cases h
    cases hs : s.blocks[v.value.path]? with
    | none =>
      refine Or.inr ?_
      simp [answer, updateBlock_of_absent hs, Except.isOk, Except.toBool]
    | some stored =>
      by_cases hr : v.revision = stored.revision
      · refine Or.inl ?_
        simp only [answer, updateBlock_of_current hs hr, Std.ExtTreeMap.getElem?_insert_self, hr]
        exact ⟨rfl, .updated stored v.value, fun p hp => getElem?_insert_of_ne hp⟩
      · refine Or.inr ?_
        simp [answer, updateBlock_of_stale hs hr, Except.isOk, Except.toBool]
  | deleteBlock cidr =>
    cases h
    cases hs : s.blocks[Block.pathOf cidr]? with
    | none =>
      refine Or.inr ?_
      simp [answer, deleteBlock_of_absent hs, Except.isOk, Except.toBool]
    | some stored =>
      refine Or.inl ?_
      simp only [answer, deleteBlock_of_present hs, Std.ExtTreeMap.getElem?_erase_self]
      exact ⟨rfl, .deleted stored, fun p hp => getElem?_erase_of_ne hp⟩

theorem change_of_effect (h : s.effect p r = some c) : r.change = some (p, c) := by
  cases hr : r.change with
  | none => simp [effect, hr] at h
  | some change =>
    obtain ⟨path, c'⟩ := change
    simp only [effect, hr, Option.ite_none_right_eq_some, Option.some.injEq] at h
    obtain ⟨⟨rfl, -⟩, rfl⟩ := h
    rfl

theorem isOk_of_effect (h : s.effect p r = some c) : (s.answer r).1.isOk := by
  simp only [effect, change_of_effect h, Option.ite_none_right_eq_some] at h
  exact h.1.2

theorem turns_of_effect (h : s.effect p r = some c) :
    c.Turns s.blocks[p]? (s.answer r).2.blocks[p]? := by
  rcases answer_cases (change_of_effect h) with ⟨-, hturns, -⟩ | ⟨hfail, -⟩
  · exact hturns
  · exact absurd (isOk_of_effect h) hfail

theorem blocks_of_effect_none (h : s.effect p r = none) :
    (s.answer r).2.blocks[p]? = s.blocks[p]? := by
  cases hr : r.change with
  | none => rw [blocks_of_change_none hr]
  | some change =>
    obtain ⟨path, c⟩ := change
    rcases answer_cases hr with ⟨hok, -, hother⟩ | ⟨-, hsame⟩
    · apply hother
      rintro rfl
      simp [effect, hr, hok] at h
    · rw [hsame]

theorem blocks_of_ne (h : r.blockPath ≠ some p) : (s.answer r).2.blocks[p]? = s.blocks[p]? := by
  apply blocks_of_effect_none
  rw [Option.eq_none_iff_forall_ne_some]
  intro c hc
  exact h (congrArg (Option.map Prod.fst) (change_of_effect hc))

theorem affinities_of_ne (h : r.affinityPath ≠ some p) :
    (s.answer r).2.affinities[p]? = s.affinities[p]? := by
  cases r with
  | getBlock | listAffinities => rfl
  | createBlock b =>
    simp only [answer, createBlock]
    split <;> rfl
  | updateBlock v =>
    simp only [answer, updateBlock]
    split
    · rfl
    · split <;> rfl
  | deleteBlock cidr =>
    simp only [answer, deleteBlock]
    split <;> rfl
  | createAffinity a =>
    have hp : ¬a.path = p := fun hp => h (congrArg some hp)
    simp only [answer, createAffinity]
    split
    · rfl
    · simp [Std.ExtTreeMap.getElem?_insert, hp]
  | deleteAffinity a =>
    have hp : ¬a.path = p := fun hp => h (congrArg some hp)
    simp only [answer, deleteAffinity]
    split
    · simp [Std.ExtTreeMap.getElem?_erase, hp]
    · rfl

/-- A call that fails changes nothing. -/
theorem answer_of_error {e : StoreError} (h : (s.answer r).1 = .error e) : (s.answer r).2 = s := by
  cases hr : r.change with
  | some change =>
    rcases answer_cases (s := s) hr with ⟨hok, -⟩ | ⟨-, hsame⟩
    · rw [h] at hok
      cases hok
    · exact hsame
  | none =>
    cases r with
    | getBlock | listAffinities => rfl
    | createBlock | updateBlock | deleteBlock => cases hr
    | createAffinity a =>
      cases hs : s.affinities[a.path]? with
      | some record => simp [answer, createAffinity, hs]
      | none => simp [answer, createAffinity, hs] at h
    | deleteAffinity a =>
      cases hs : s.affinities[a.path]? with
      | some record => simp [answer, deleteAffinity, hs] at h
      | none => simp [answer, deleteAffinity, hs]

end Store

/-- A chain of changes of one path, from the record that stood there at first. -/
inductive Lineage : Option (Versioned Block) → List Change → Option (Versioned Block) → Prop
  | nil (record : Option (Versioned Block)) : Lineage record [] record
  | cons {first next last : Option (Versioned Block)} {c : Change} {changes : List Change}
      (h : c.Turns first next) (rest : Lineage next changes last) : Lineage first (c :: changes) last

namespace Lineage

variable {first last : Option (Versioned Block)} {front back changes : List Change}

theorem append_iff :
    Lineage first (front ++ back) last ↔ ∃ mid, Lineage first front mid ∧ Lineage mid back last := by
  constructor
  · intro h
    induction front generalizing first with
    | nil => exact ⟨first, .nil first, h⟩
    | cons c front ih =>
      cases h with
      | cons hc rest =>
        obtain ⟨mid, hfront, hback⟩ := ih rest
        exact ⟨mid, .cons hc hfront, hback⟩
  · rintro ⟨mid, hfront, hback⟩
    induction hfront with
    | nil => exact hback
    | cons hc _ ih => exact .cons hc (ih hback)

theorem concat_iff {c : Change} :
    Lineage first (changes ++ [c]) last ↔ ∃ mid, Lineage first changes mid ∧ c.Turns mid last := by
  rw [append_iff]
  apply exists_congr
  intro mid
  apply and_congr_right
  intro _
  constructor
  · intro h
    cases h with
    | cons hc rest =>
      cases rest
      exact hc
  · intro hc
    exact .cons hc (.nil last)

/-- What stands at the end is what was written last. -/
theorem map_value (h : Lineage first changes last) :
    last.map Versioned.value = (changes.getLast?.map Change.value).getD (first.map Versioned.value) := by
  cases changes using List.reverseRecOn with
  | nil =>
    cases h
    rfl
  | append_singleton changes c =>
    obtain ⟨mid, -, hc⟩ := concat_iff.1 h
    rw [hc.map_value, List.getLast?_concat]
    rfl

theorem present_of_not_deleted (h : Lineage first changes last) {stored : Versioned Block}
    (hfirst : first = some stored) (hnot : .deleted ∉ changes) : ∃ stored', last = some stored' := by
  induction h generalizing stored with
  | nil => exact ⟨stored, hfirst⟩
  | cons hc rest ih =>
    cases hc with
    | created => cases hfirst
    | updated mid value => exact ih rfl fun hmem => hnot (List.mem_cons_of_mem _ hmem)
    | deleted => exact absurd List.mem_cons_self hnot

end Lineage

/-- The record at a path after any calls is what the changes of that path made of the one before. -/
theorem Store.lineage (s : Store) (p : String) (calls : List Request) :
    Lineage s.blocks[p]? (s.changes p calls) (s.after calls).blocks[p]? := by
  induction calls generalizing s with
  | nil => exact .nil _
  | cons r calls ih =>
    cases h : s.effect p r with
    | none =>
      simp only [changes, h, Option.toList_none, List.nil_append, after_cons]
      rw [← blocks_of_effect_none h]
      exact ih _
    | some c =>
      simp only [changes, h, Option.toList_some, List.singleton_append, after_cons]
      exact .cons (turns_of_effect h) (ih _)

namespace Store

theorem length_changes_le (s : Store) (p : String) (calls : List Request) :
    (s.changes p calls).length ≤ calls.length := by
  induction calls generalizing s with
  | nil => exact Nat.le_refl 0
  | cons r calls ih =>
    rw [changes, List.length_append, List.length_cons, Nat.add_comm]
    exact Nat.add_le_add (ih _) (Option.length_toList_le)

theorem exists_delete_of_mem_changes {s : Store} {p : String} {calls : List Request}
    (h : .deleted ∈ s.changes p calls) : ∃ cidr, .deleteBlock cidr ∈ calls := by
  induction calls generalizing s with
  | nil => cases h
  | cons r calls ih =>
    rw [changes, List.mem_append, Option.mem_toList] at h
    rcases h with heffect | hlater
    · have hchange := change_of_effect heffect
      cases r with
      | deleteBlock cidr => exact ⟨cidr, List.mem_cons_self⟩
      | createBlock | updateBlock | getBlock | createAffinity | deleteAffinity | listAffinities =>
        cases hchange
    · obtain ⟨cidr, hcidr⟩ := ih hlater
      exact ⟨cidr, List.mem_cons_of_mem r hcidr⟩

/-- Every record stands under its own path, as in every store that calls have filled. -/
structure Filed (s : Store) : Prop where
  blocks : ∀ {p : String} {stored : Versioned Block},
    s.blocks[p]? = some stored → stored.value.path = p
  affinities : ∀ {p : String} {stored : Versioned Affinity},
    s.affinities[p]? = some stored → stored.value.path = p

theorem filed_empty : empty.Filed where
  blocks h := by simp [empty] at h
  affinities h := by simp [empty] at h

theorem Filed.insert {s : Store} (h : s.Filed) (v : Versioned Block) :
    (⟨s.blocks.insert v.value.path v, s.affinities⟩ : Store).Filed where
  blocks {p stored} hs := by
    by_cases hp : p = v.value.path
    · rw [hp, Std.ExtTreeMap.getElem?_insert_self] at hs
      cases hs
      exact hp.symm
    · rw [getElem?_insert_of_ne hp] at hs
      exact h.blocks hs
  affinities := h.affinities

theorem getElem?_affinities_answer (s : Store) (p : String) (r : Request) :
    (s.answer r).2.affinities[p]? = s.affinities[p]? ∨ (s.answer r).2.affinities[p]? = none ∨
      ∃ a, a.path = p ∧ (s.answer r).2.affinities[p]? = some ⟨a, .initial⟩ := by
  by_cases hp : r.affinityPath = some p
  · cases r with
    | createAffinity a =>
      cases hp
      simp only [answer, createAffinity]
      split
      · exact Or.inl rfl
      · exact Or.inr (Or.inr ⟨a, rfl, Std.ExtTreeMap.getElem?_insert_self⟩)
    | deleteAffinity a =>
      cases hp
      exact Or.inr (Or.inl getElem?_deleteAffinity)
    | getBlock | createBlock | updateBlock | deleteBlock | listAffinities => cases hp
  · exact Or.inl (affinities_of_ne hp)

theorem Filed.answer {s : Store} (h : s.Filed) (r : Request) : (s.answer r).2.Filed where
  blocks {p stored} hs := by
    cases he : s.effect p r with
    | none =>
      rw [blocks_of_effect_none he] at hs
      exact h.blocks hs
    | some c =>
      have hvalue := (turns_of_effect he).map_value
      rw [hs] at hvalue
      exact Request.path_of_change (change_of_effect he) hvalue.symm
  affinities {p stored} hs := by
    rcases s.getElem?_affinities_answer p r with hsame | hnone | ⟨a, ha, hnew⟩
    · exact h.affinities (hsame.symm.trans hs)
    · cases hnone.symm.trans hs
    · cases hnew.symm.trans hs
      exact ha

theorem Filed.after {s : Store} (h : s.Filed) (calls : List Request) : (s.after calls).Filed := by
  induction calls generalizing s with
  | nil => exact h
  | cons r calls ih => exact ih (h.answer r)

end Store

end HostBlocks
