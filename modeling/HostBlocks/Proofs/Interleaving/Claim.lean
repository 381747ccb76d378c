import HostBlocks.Proofs.Search

/-!
# The places of a claim

Between two of its calls a claim is at one of a few places. From each place its next call to the store
leads on in a few ways, and which one is taken depends only on the record that the call meets. So a
claim that shares the store with others is followed place by place, one move at a time.
-/
namespace HostBlocks

namespace Program

variable {α β : Type}

def step (p : Program α) (s : Store) : Program α × Store :=
  match p with
  | done a => (done a, s)
  | call r next => (next (s.answer r).1, (s.answer r).2)

def result : Program α → Option α
  | done a => some a
  | call _ _ => none

theorem result_eq_some_iff {p : Program α} {a : α} : p.result = some a ↔ p = done a := by
  cases p with
  | done a' => simp [result]
  | call r next => simp [result]

@[simp] theorem step_done (a : α) (s : Store) : (done a).step s = (done a, s) := rfl

theorem step_map (f : α → β) (p : Program α) (s : Store) :
    (p.map f).step s = ((p.step s).1.map f, (p.step s).2) := by
  cases p <;> rfl

theorem map_eq_done_iff {f : α → β} {p : Program α} {b : β} :
    p.map f = done b ↔ ∃ a, p = done a ∧ f a = b := by
  cases p with
  | done a => simp [map, bind]
  | call r next => simp [map, bind]

end Program

namespace Claim

/-- What a claim does next: it looks at a candidate with others after it, or makes one of the calls
that claim the block it has found, or has returned. -/
inductive Stage where
  | probing (family : Family) (cidr : Network) (rest : List Network)
  | recording (cidr : Network)
  | creating (cidr : Network)
  | rereading (cidr : Network)
  | withdrawing (cidr : Network) (block : Block)
  | returned (outcome : Outcome Network)

namespace Stage

def search (family : Family) : List Network → Stage
  | [] => returned (.error (.noFreeBlocks family))
  | cidr :: rest => probing family cidr rest

variable (host : String) (policy : Policy)

def program : Stage → Program (Outcome Network)
  | probing family cidr rest =>
    probe host policy (.done (.error (.noFreeBlocks family))) (cidr :: rest)
  | recording cidr => found cidr host policy
  | creating cidr => (create cidr host policy).map (Except.map fun _ => cidr)
  | rereading cidr => (reread cidr host).map (Except.map fun _ => cidr)
  | withdrawing cidr block => (withdraw cidr host block).map (Except.map fun _ => cidr)
  | returned outcome => .done outcome

theorem program_search (family : Family) (candidates : List Network) :
    (search family candidates).program host policy =
      probe host policy (.done (.error (.noFreeBlocks family))) candidates := by
  cases candidates <;> rfl

theorem program_eq_done_iff {stage : Stage} {outcome : Outcome Network} :
    stage.program host policy = .done outcome ↔ stage = .returned outcome := by
  cases stage with
  | returned outcome => simp [program]
  | probing | recording | creating | rereading | withdrawing => exact iff_of_false nofun nofun

end Stage

/-- One call of a claim of `host` on the store `s`: from which place it is made, to which it leads,
and the store after it. -/
inductive Move (host : String) (policy : Policy) (s : Store) : Stage → Stage → Store → Prop
  | taken {family : Family} {cidr : Network} {rest : List Network} {stored : Versioned Block}
      (h : s.blocks[Block.pathOf cidr]? = some stored) :
      Move host policy s (.probing family cidr rest) (.search family rest) s
  | free {family : Family} {cidr : Network} {rest : List Network}
      (h : s.blocks[Block.pathOf cidr]? = none) :
      Move host policy s (.probing family cidr rest) (.recording cidr) s
  | recorded {cidr : Network} :
      Move host policy s (.recording cidr) (.creating cidr) (s.createAffinity (.of host cidr)).2
  | created {cidr : Network} (h : s.blocks[Block.pathOf cidr.trunc]? = none) :
      Move host policy s (.creating cidr) (.returned (.ok cidr))
        { s with
          blocks := s.blocks.insert (Block.pathOf cidr.trunc)
            ⟨.claimed cidr host policy.strictAffinity, .initial⟩ }
  | present {cidr : Network} {stored : Versioned Block}
      (h : s.blocks[Block.pathOf cidr.trunc]? = some stored) :
      Move host policy s (.creating cidr) (.rereading cidr) s
  | own {cidr : Network} {stored : Versioned Block}
      (h : s.blocks[Block.pathOf cidr]? = some stored) (ho : stored.value.isOwnedBy host) :
      Move host policy s (.rereading cidr) (.returned (.ok cidr)) s
  | lost {cidr : Network} {stored : Versioned Block}
      (h : s.blocks[Block.pathOf cidr]? = some stored) (ho : ¬stored.value.isOwnedBy host) :
      Move host policy s (.rereading cidr) (.withdrawing cidr stored.value) s
  | gone {cidr : Network} (h : s.blocks[Block.pathOf cidr]? = none) :
      Move host policy s (.rereading cidr)
        (.returned (.error (.store (.notFound (Block.pathOf cidr))))) s
  | withdrawn {cidr : Network} {block : Block} :
      Move host policy s (.withdrawing cidr block) (.returned (.error (.claimedByOther block)))
        (s.deleteAffinity (.of host cidr)).2

namespace Stage

def All (P : Network → Prop) : Stage → Prop
  | probing _ cidr rest => ∀ c ∈ cidr :: rest, P c
  | recording cidr => P cidr
  | creating cidr => P cidr
  | rereading cidr => P cidr
  | withdrawing cidr _ => P cidr
  | returned _ => True

theorem all_of_forall {P : Network → Prop} (h : ∀ c, P c) (stage : Stage) : stage.All P := by
  cases stage with
  | probing family cidr rest => exact fun c _ => h c
  | recording | creating | rereading | withdrawing => exact h _
  | returned outcome => trivial

theorem all_search {P : Network → Prop} {family : Family} {candidates : List Network}
    (h : ∀ c ∈ candidates, P c) : (search family candidates).All P := by
  cases candidates with
  | nil => trivial
  | cons cidr rest => exact h

theorem All.move {P : Network → Prop} {host : String} {policy : Policy} {s s' : Store}
    {stage stage' : Stage} (h : stage.All P) (hm : Move host policy s stage stage' s') :
    stage'.All P := by
  cases hm with
  | taken hs => exact all_search fun c hc => h c (List.mem_cons_of_mem _ hc)
  | free hs => exact h _ List.mem_cons_self
  | recorded | present | lost => exact h
  | created | own | gone | withdrawn => trivial

def IsClear (stage : Stage) : Prop := stage.All fun c => c.trunc = c

theorem isClear_search {family : Family} {candidates : List Network}
    (h : ∀ c ∈ candidates, c.trunc = c) : (search family candidates).IsClear :=
  all_search h

theorem IsClear.move {host : String} {policy : Policy} {s s' : Store} {stage stage' : Stage}
    (h : stage.IsClear) (hm : Move host policy s stage stage' s') : stage'.IsClear :=
  All.move h hm

end Stage

variable (host : String) (policy : Policy)

/-- The call that a claim makes at a place is one of the moves from there. -/
theorem exists_move (stage : Stage) (s : Store) (h : ∀ outcome, stage ≠ .returned outcome) :
    ∃ stage' s', Move host policy s stage stage' s' ∧
      (stage.program host policy).step s = (stage'.program host policy, s') := by
  cases stage with
  | probing family cidr rest =>
    cases hs : s.blocks[Block.pathOf cidr]? with
    | some stored =>
      refine ⟨_, _, .taken hs, ?_⟩
      rw [Stage.program_search]
      simp [Stage.program, probe, Program.step, Store.answer, Store.getBlock, hs]
    | none =>
      refine ⟨_, _, .free hs, ?_⟩
      simp [Stage.program, probe, Program.step, Store.answer, Store.getBlock, hs,
        StoreError.isNotFound, StoreError.kind]
  | recording cidr => exact ⟨_, _, .recorded, rfl⟩
  | creating cidr =>
    have hpath : (Block.claimed cidr host policy.strictAffinity).path = Block.pathOf cidr.trunc := rfl
    cases hs : s.blocks[Block.pathOf cidr.trunc]? with
    | none =>
      refine ⟨_, _, .created hs, ?_⟩
      simp [Stage.program, create, Program.map, Program.bind, Program.step, Store.answer,
        Store.createBlock, hpath, hs, Except.map]
    | some stored =>
      refine ⟨_, _, .present hs, ?_⟩
      simp [Stage.program, create, Program.map, Program.bind, Program.step, Store.answer,
        Store.createBlock, hpath, hs, StoreError.kind]
  | rereading cidr =>
    cases hs : s.blocks[Block.pathOf cidr]? with
    | none =>
      refine ⟨_, _, .gone hs, ?_⟩
      simp [Stage.program, reread, Program.map, Program.bind, Program.step, Store.answer,
        Store.getBlock, hs, Except.map]
    | some stored =>
      by_cases ho : stored.value.isOwnedBy host
      · refine ⟨_, _, .own hs ho, ?_⟩
        simp [Stage.program, reread, Program.map, Program.bind, Program.step, Store.answer,
          Store.getBlock, hs, ho, Except.map]
      · refine ⟨_, _, .lost hs ho, ?_⟩
        simp [Stage.program, reread, Program.map, Program.step, Store.answer,
          Store.getBlock, hs, ho, Program.bind]
  | withdrawing cidr block =>
    refine ⟨_, _, .withdrawn, ?_⟩
    cases hs : s.affinities[(Affinity.of host cidr).path]? <;>
      simp [Stage.program, withdraw, Program.map, Program.bind, Program.step, Store.answer,
        Store.deleteAffinity, hs, Except.map, StoreError.isNotFound, StoreError.kind]
  | returned outcome => exact absurd rfl (h outcome)

end Claim

end HostBlocks
