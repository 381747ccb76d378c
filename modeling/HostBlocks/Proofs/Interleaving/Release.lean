import HostBlocks.Allocation.Release
import HostBlocks.Proofs.Interleaving.Claim

/-!
# The places of a release

A release reads the record, and what it read decides whether it deletes the record or writes it back
without an owner. The record may be another by then: only the second of the two calls compares
revisions. Either way the affinity record goes last.
-/
namespace HostBlocks.Release

/-- What a release does next: it reads the block with so many rounds left after that, or acts on what
it has read, or has returned. -/
inductive Stage where
  | reading (left : Nat)
  | deleting
  | clearing (read : Versioned Block) (left : Nat)
  | cleaning (disposition : Disposition)
  | returned (outcome : Outcome Released)

variable (bound : Nat) (host : String) (cidr : Network)

namespace Stage

def round : Nat → Stage
  | 0 => returned (.error (.roundsExhausted cidr bound))
  | left + 1 => reading left

def program : Stage → Program (Outcome Released)
  | reading left => rounds bound host cidr (left + 1)
  | deleting => delete host cidr
  | clearing read left => clear host cidr read fun _ => rounds bound host cidr left
  | cleaning disposition => cleanUp host cidr disposition
  | returned outcome => .done outcome

theorem program_round (left : Nat) :
    (round bound cidr left).program bound host cidr = rounds bound host cidr left := by
  cases left <;> rfl

theorem program_eq_done_iff {stage : Stage} {outcome : Outcome Released} :
    stage.program bound host cidr = .done outcome ↔ stage = .returned outcome := by
  cases stage with
  | returned outcome => simp [program]
  | reading | deleting | clearing | cleaning => exact iff_of_false nofun nofun

end Stage

inductive Move (s : Store) : Stage → Stage → Store → Prop
  | missing {left : Nat} (h : s.blocks[Block.pathOf cidr]? = none) :
      Move s (.reading left) (.returned (.error (.store (.notFound (Block.pathOf cidr))))) s
  | foreign {left : Nat} {stored : Versioned Block}
      (h : s.blocks[Block.pathOf cidr]? = some stored) (ho : stored.value.isOwnedByOther host) :
      Move s (.reading left) (.returned (.error (.claimedByOther stored.value))) s
  | empty {left : Nat} {stored : Versioned Block}
      (h : s.blocks[Block.pathOf cidr]? = some stored) (ho : ¬stored.value.isOwnedByOther host)
      (he : stored.value.isEmpty) : Move s (.reading left) .deleting s
  | leased {left : Nat} {stored : Versioned Block}
      (h : s.blocks[Block.pathOf cidr]? = some stored) (ho : ¬stored.value.isOwnedByOther host)
      (he : ¬stored.value.isEmpty) : Move s (.reading left) (.clearing stored left) s
  | deleted {stored : Versioned Block} (h : s.blocks[Block.pathOf cidr]? = some stored) :
      Move s .deleting (.cleaning .deleted)
        { s with blocks := s.blocks.erase (Block.pathOf cidr) }
  | absent (h : s.blocks[Block.pathOf cidr]? = none) : Move s .deleting (.cleaning .deleted) s
  | cleared {read stored : Versioned Block} {left : Nat}
      (h : s.blocks[read.value.path]? = some stored) (hr : read.revision = stored.revision) :
      Move s (.clearing read left) (.cleaning .affinityCleared)
        { s with
          blocks := s.blocks.insert read.value.path ⟨read.value.released, read.revision.next⟩ }
  | conflict {read stored : Versioned Block} {left : Nat}
      (h : s.blocks[read.value.path]? = some stored) (hr : read.revision ≠ stored.revision) :
      Move s (.clearing read left) (.round bound cidr left) s
  | vanished {read : Versioned Block} {left : Nat} (h : s.blocks[read.value.path]? = none) :
      Move s (.clearing read left) (.returned (.error (.store (.notFound read.value.path)))) s
  | cleaned {disposition : Disposition} :
      Move s (.cleaning disposition) (.returned (.ok ⟨cidr, disposition, none⟩))
        (s.deleteAffinity (.of host cidr)).2

/-- The call that a release makes at a place is one of the moves from there. -/
theorem exists_move (stage : Stage) (s : Store) (h : ∀ outcome, stage ≠ .returned outcome) :
    ∃ stage' s', Move bound host cidr s stage stage' s' ∧
      (stage.program bound host cidr).step s = (stage'.program bound host cidr, s') := by
  cases stage with
  | reading left =>
    cases hs : s.blocks[Block.pathOf cidr]? with
    | none =>
      refine ⟨_, _, .missing hs, ?_⟩
      simp [Stage.program, rounds, round, Program.step, Store.answer, Store.getBlock, hs]
    | some stored =>
      by_cases ho : stored.value.isOwnedByOther host
      · refine ⟨_, _, .foreign hs ho, ?_⟩
        simp [Stage.program, rounds, round, Program.step, Store.answer, Store.getBlock, hs, ho]
      · by_cases he : stored.value.isEmpty
        · refine ⟨_, _, .empty hs ho he, ?_⟩
          simp [Stage.program, rounds, round, Program.step, Store.answer, Store.getBlock, hs, ho, he]
        · refine ⟨_, _, .leased hs ho he, ?_⟩
          simp [Stage.program, rounds, round, Program.step, Store.answer, Store.getBlock, hs, ho, he]
  | deleting =>
    cases hs : s.blocks[Block.pathOf cidr]? with
    | none =>
      refine ⟨_, _, .absent hs, ?_⟩
      simp [Stage.program, delete, Program.step, Store.answer, Store.deleteBlock, hs,
        StoreError.isNotFound, StoreError.kind]
    | some stored =>
      refine ⟨_, _, .deleted hs, ?_⟩
      simp [Stage.program, delete, Program.step, Store.answer, Store.deleteBlock, hs]
  | clearing read left =>
    have hpath : read.value.released.path = read.value.path := rfl
    cases hs : s.blocks[read.value.path]? with
    | none =>
      refine ⟨_, _, .vanished hs, ?_⟩
      simp [Stage.program, clear, Program.step, Store.answer, Store.updateBlock, hpath, hs,
        StoreError.kind]
    | some stored =>
      by_cases hr : read.revision = stored.revision
      · refine ⟨_, _, .cleared hs hr, ?_⟩
        simp [Stage.program, clear, Program.step, Store.answer, Store.updateBlock, hpath, hs,
          (Revision.holdsAt_iff _ _).2 hr]
      · refine ⟨_, _, .conflict hs hr, ?_⟩
        rw [Stage.program_round]
        simp [Stage.program, clear, Program.step, Store.answer, Store.updateBlock, hpath, hs,
          mt (Revision.holdsAt_iff _ _).1 hr, StoreError.kind]
  | cleaning disposition =>
    refine ⟨_, _, .cleaned, ?_⟩
    cases hs : s.affinities[(Affinity.of host cidr).path]? <;>
      simp [Stage.program, cleanUp, Program.step, Store.answer, Store.deleteAffinity, hs,
        StoreError.isNotFound, StoreError.kind]
  | returned outcome => exact absurd rfl (h outcome)

end HostBlocks.Release
