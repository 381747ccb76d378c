import HostBlocks.Proofs.FirstFree
import HostBlocks.Rehearsal
import Mathlib.Data.Set.Basic

/-!
# Index writes that fail

The affinity records are an index, and no write to them decides who owns a block. A claim whose affinity
record cannot be made, and a release whose affinity record cannot be removed, do to the block records what
they would have done anyway. Such a failure is a fault of a rehearsal that strikes once, at the first call
of its kind, and has no effect on the store.

After the fault the two runs go on from stores that differ in one affinity record. A claim that loses its
block still removes that record, so that the stores become the same again.
-/
namespace HostBlocks

namespace Store

/-- The second store has the same block records and, except under some paths, the same affinity records. -/
structure SameOutside (paths : Set String) (s t : Store) : Prop where
  blocks : t.blocks = s.blocks
  affinities : ∀ p ∉ paths, t.affinities[p]? = s.affinities[p]?

theorem SameOutside.refl (paths : Set String) (s : Store) : SameOutside paths s s :=
  ⟨rfl, fun _ _ => rfl⟩

/-- An index write changes nothing but the record under its path. -/
theorem sameOutside_answer (s : Store) {r : Request} {path : String}
    (h : r.affinityPath = some path) : SameOutside {path} (s.answer r).2 s where
  blocks := by
    have hchange : r.change = none := by cases r <;> first | rfl | cases h
    exact (blocks_of_change_none hchange).symm
  affinities p hp := by
    have hne : r.affinityPath ≠ some p := by
      rw [h]
      rintro ⟨⟩
      exact hp rfl
    exact (affinities_of_ne hne).symm

/-- Stores that differ under one path alone are the same once the record there is removed. -/
theorem SameOutside.deleteAffinity_eq {a : Affinity} {s t : Store} (h : SameOutside {a.path} s t) :
    (t.deleteAffinity a).2 = (s.deleteAffinity a).2 := by
  rw [Store.deleteAffinity_eq, Store.deleteAffinity_eq, h.blocks]
  congr 1
  apply Std.ExtTreeMap.ext_getElem?
  intro p
  simp only [Std.ExtTreeMap.getElem?_erase]
  split
  · rfl
  · next hp => exact h.affinities p fun hpath => hp (Std.LawfulEqCmp.compare_eq_iff_eq.2 hpath.symm)

end Store

namespace Rehearsal

variable {σ α : Type} {serve : (r : Request) → σ → r.Reply × σ}

theorem perform_call (r : Request) (next : r.Reply → Program α) (now : Rehearsal σ) :
    (perform serve (.call r next)).run now =
      (perform serve (next (reply serve r now).1)).run (reply serve r now).2 := rfl

/-- What a rehearsal comes to does not depend on the calls that were made before it. -/
theorem perform_congr (p : Program α) (now now' : Rehearsal σ) (hworld : now.world = now'.world)
    (hfaults : now.faults = now'.faults) :
    ((perform serve p).run now).1 = ((perform serve p).run now').1 ∧
      ((perform serve p).run now).2.world = ((perform serve p).run now').2.world := by
  induction p generalizing now now' with
  | done a => exact ⟨rfl, hworld⟩
  | call r next ih =>
    obtain ⟨hreply, hafter, hleft⟩ : (reply serve r now).1 = (reply serve r now').1 ∧
        (reply serve r now).2.world = (reply serve r now').2.world ∧
        (reply serve r now).2.faults = (reply serve r now').2.faults := by
      simp only [reply, hworld, hfaults, and_self]
    rw [perform_call, perform_call, ← hreply]
    exact ih _ _ _ hafter hleft

theorem consult_of_spent {kind : Request.Kind} {faults : List (Fault σ)}
    (h : ∀ f ∈ faults, f.times = 0) : consult kind faults = (none, faults) := by
  induction faults with
  | nil => rfl
  | cons f rest ih =>
    obtain ⟨hf, hrest⟩ := List.forall_mem_cons.1 h
    simp [consult, hf, ih hrest]

/-- A rehearsal whose faults have all struck runs the program as the store alone would. -/
theorem perform_of_spent (p : Program α) (now : Rehearsal Store) (h : ∀ f ∈ now.faults, f.times = 0) :
    ((perform (fun r s => s.answer r) p).run now).1 = (p.run now.world).1 ∧
      ((perform (fun r s => s.answer r) p).run now).2.world = (p.run now.world).2 := by
  induction p generalizing now with
  | done a => exact ⟨rfl, rfl⟩
  | call r next ih =>
    have hreply : reply (fun r s => s.answer r) r now = ((now.world.answer r).1,
        ⟨(now.world.answer r).2, now.faults, now.catalogFaults,
          ⟨r, failure (now.world.answer r).1⟩ :: now.calls⟩) := by
      simp only [reply, consult_of_spent h, served]
    rw [perform_call, hreply]
    exact ih _ _ h

end Rehearsal

def Fault.once (kind : Request.Kind) (e : StoreError) : Fault Store := ⟨kind, 0, 1, some e, id⟩

namespace Program

variable {α β : Type} {kind : Request.Kind} {e : StoreError}

/-- Runs alone on a store, where the first call of the kind fails and has no effect. -/
def runFailing (p : Program α) (kind : Request.Kind) (e : StoreError) (s : Store) : α × Store :=
  let ended := (Rehearsal.perform (fun r s => s.answer r) p).run ⟨s, [.once kind e], [], []⟩
  (ended.1, ended.2.world)

/-- The fault strikes, and what is left of the program runs undisturbed. -/
theorem runFailing_call_of_kind {r : Request} (hr : r.kind = kind) (next : r.Reply → Program α)
    (s : Store) : (call r next).runFailing kind e s = (next (.error e)).run s := by
  have hreply : Rehearsal.reply (fun r s => s.answer r) r ⟨s, [.once kind e], [], []⟩ =
      (.error e, ⟨s, [{ Fault.once kind e with times := 0 }], [], [⟨r, some e.kind⟩]⟩) := by
    simp [Fault.once, Rehearsal.reply, Rehearsal.consult, Rehearsal.served, Rehearsal.failure, hr]
  obtain ⟨hresult, hstore⟩ := Rehearsal.perform_of_spent (next (.error e))
    ⟨s, [{ Fault.once kind e with times := 0 }], [], [⟨r, some e.kind⟩]⟩ (by simp)
  simp only [runFailing, Rehearsal.perform_call, hreply]
  exact Prod.ext hresult hstore

theorem runFailing_call_of_ne {r : Request} (hr : r.kind ≠ kind) (next : r.Reply → Program α)
    (s : Store) : (call r next).runFailing kind e s =
      (next (s.answer r).1).runFailing kind e (s.answer r).2 := by
  have hreply : Rehearsal.reply (fun r s => s.answer r) r ⟨s, [.once kind e], [], []⟩ =
      ((s.answer r).1, ⟨(s.answer r).2, [.once kind e], [], [⟨r, Rehearsal.failure (s.answer r).1⟩]⟩) := by
    simp [Fault.once, Rehearsal.reply, Rehearsal.consult, Rehearsal.served, hr.symm]
  obtain ⟨hresult, hstore⟩ := Rehearsal.perform_congr (next (s.answer r).1)
    ⟨(s.answer r).2, [.once kind e], [], [⟨r, Rehearsal.failure (s.answer r).1⟩]⟩
    ⟨(s.answer r).2, [.once kind e], [], []⟩ rfl rfl
  simp only [runFailing, Rehearsal.perform_call, hreply]
  exact Prod.ext hresult hstore

theorem runFailing_map (f : α → β) (p : Program α) (s : Store) :
    (p.map f).runFailing kind e s = (f (p.runFailing kind e s).1, (p.runFailing kind e s).2) := by
  induction p generalizing s with
  | done a => rfl
  | call r next ih =>
    have hmap : (call r next).map f = call r fun reply => (next reply).map f := rfl
    by_cases hr : r.kind = kind
    · rw [hmap, runFailing_call_of_kind hr, runFailing_call_of_kind hr, run_map]
    · rw [hmap, runFailing_call_of_ne hr, runFailing_call_of_ne hr, ih]

variable {reported : α → α} {paths : α → Set String}

/-- If the first call of the kind fails without effect, the result is only reported differently, and of
the records only affinity records under some paths differ. -/
def Tolerates (kind : Request.Kind) (e : StoreError) (reported : α → α) (paths : α → Set String)
    (p : Program α) : Prop :=
  ∀ s, (p.runFailing kind e s).1 = reported (p.run s).1 ∧
    (p.run s).2.SameOutside (paths (p.run s).1) (p.runFailing kind e s).2

theorem tolerates_done {a : α} (h : reported a = a) : (done a).Tolerates kind e reported paths :=
  fun s => ⟨h.symm, .refl _ s⟩

theorem tolerates_call {r : Request} {next : r.Reply → Program α} (hr : r.kind ≠ kind)
    (h : ∀ reply, (next reply).Tolerates kind e reported paths) :
    (call r next).Tolerates kind e reported paths := by
  intro s
  rw [run_call, runFailing_call_of_ne hr]
  exact h _ _

end Program

variable {s t : Store} {host : String} {policy : Policy} {cidr : Network} {e : StoreError}

namespace Claim

/-- Rereading from stores that differ in the claim's own affinity record. -/
theorem run_reread_of_sameOutside (h : s.SameOutside {(Affinity.of host cidr).path} t) :
    ((reread cidr host).run t).1 = ((reread cidr host).run s).1 ∧
      ((reread cidr host).run s).2.SameOutside {(Affinity.of host cidr).path}
        ((reread cidr host).run t).2 := by
  cases hs : s.blocks[Block.pathOf cidr]? with
  | none =>
    rw [run_reread_of_absent hs, run_reread_of_absent (h.blocks ▸ hs)]
    exact ⟨rfl, h⟩
  | some stored =>
    by_cases ho : stored.value.isOwnedBy host
    · rw [run_reread_of_own hs ho, run_reread_of_own (h.blocks ▸ hs) ho]
      exact ⟨rfl, h⟩
    · rw [run_reread_of_other hs ho, run_reread_of_other (h.blocks ▸ hs) ho, h.deleteAffinity_eq]
      exact ⟨rfl, .refl _ _⟩

theorem run_create_of_sameOutside (policy : Policy)
    (h : s.SameOutside {(Affinity.of host cidr).path} t) :
    ((create cidr host policy).run t).1 = ((create cidr host policy).run s).1 ∧
      ((create cidr host policy).run s).2.SameOutside {(Affinity.of host cidr).path}
        ((create cidr host policy).run t).2 := by
  cases hs : s.blocks[Block.pathOf cidr.trunc]? with
  | none =>
    rw [run_create_of_free hs, run_create_of_free (h.blocks ▸ hs), h.blocks]
    exact ⟨rfl, rfl, h.affinities⟩
  | some stored =>
    rw [run_create_of_taken hs, run_create_of_taken (h.blocks ▸ hs)]
    exact run_reread_of_sameOutside h

/-- A claim that loses takes its affinity record back, whether it could make it or not. -/
theorem run_create_of_lost (hclear : cidr.trunc = cidr)
    (h : s.SameOutside {(Affinity.of host cidr).path} t) {lost : AllocationError}
    (hlost : ((create cidr host policy).run s).1 = .error lost) :
    ((create cidr host policy).run t).2 = ((create cidr host policy).run s).2 := by
  cases hs : s.blocks[Block.pathOf cidr.trunc]? with
  | none =>
    rw [run_create_of_free hs] at hlost
    cases hlost
  | some stored =>
    rw [run_create_of_taken hs] at hlost
    rw [run_create_of_taken hs, run_create_of_taken (h.blocks ▸ hs)]
    rw [hclear] at hs
    by_cases ho : stored.value.isOwnedBy host
    · rw [run_reread_of_own hs ho] at hlost
      cases hlost
    · rw [run_reread_of_other hs ho, run_reread_of_other (h.blocks ▸ hs) ho, h.deleteAffinity_eq]

theorem runFailing_claimBlock : (claimBlock cidr host policy).runFailing .createAffinity e s =
    (create cidr host policy).run s :=
  Program.runFailing_call_of_kind rfl _ s

theorem tolerates_claimBlock : (claimBlock cidr host policy).Tolerates .createAffinity e id
    fun _ => {(Affinity.of host cidr).path} := by
  intro s
  rw [runFailing_claimBlock, run_claimBlock]
  exact run_create_of_sameOutside policy (s.sameOutside_answer (r := .createAffinity _) rfl)

def entryPath (host : String) (claimed : Outcome Network) : Set String :=
  {p | ∃ cidr, claimed = .ok cidr ∧ p = Affinity.path ⟨host, cidr⟩}

theorem tolerates_found (hclear : cidr.trunc = cidr) :
    (found cidr host policy).Tolerates .createAffinity e id (entryPath host) := by
  intro s
  have hindex := s.sameOutside_answer (r := .createAffinity (.of host cidr)) rfl
  obtain ⟨hresult, hstore⟩ := run_create_of_sameOutside policy hindex
  rw [found, Program.run_map, Program.runFailing_map, runFailing_claimBlock, run_claimBlock]
  refine ⟨congrArg (Except.map fun _ => cidr) hresult, ?_⟩
  cases hran : ((create cidr host policy).run (s.createAffinity (.of host cidr)).2).1 with
  | ok =>
    refine ⟨hstore.blocks, fun p hp => hstore.affinities p ?_⟩
    rintro rfl
    have hentry : Affinity.of host cidr = ⟨host, cidr⟩ := congrArg (Affinity.mk host) hclear
    exact hp ⟨cidr, rfl, congrArg Affinity.path hentry⟩
  | error lost =>
    rw [run_create_of_lost hclear hindex hran]
    exact .refl _ _

theorem tolerates_probe {otherwise : Program (Outcome Network)}
    (hotherwise : otherwise.Tolerates .createAffinity e id (entryPath host))
    (candidates : List Network) (hclear : ∀ cidr ∈ candidates, cidr.trunc = cidr) :
    (probe host policy otherwise candidates).Tolerates .createAffinity e id (entryPath host) := by
  induction candidates with
  | nil => exact hotherwise
  | cons cidr rest ih =>
    obtain ⟨hcidr, hrest⟩ := List.forall_mem_cons.1 hclear
    refine Program.tolerates_call nofun fun reply => ?_
    cases reply with
    | ok found => exact ih hrest
    | error cause =>
      dsimp only
      split
      · exact tolerates_found hcidr
      · exact Program.tolerates_done rfl

theorem tolerates_claimFree (settings : Settings) (catalog : Catalog) (words : Nat → Words)
    (family : Family) (requested : Option Network) :
    (claimFree settings catalog words host family requested policy).Tolerates .createAffinity e id
      (entryPath host) := by
  rcases claimFree_cases settings host family policy catalog words requested with
    ⟨failure, -, hdone⟩ | ⟨resolved, -, -, hprobe⟩
  · rw [hdone]
    exact Program.tolerates_done rfl
  · rw [hprobe]
    exact tolerates_probe (Program.tolerates_done rfl) _ fun _ => trunc_of_mem_candidates

end Claim

def Released.reporting (e : StoreError) (r : Released) : Released :=
  { r with cleanupError := if e.isNotFound then none else some e }

namespace Release

abbrev IsTolerant (e : StoreError) (host : String) (cidr : Network) (p : Program (Outcome Released)) :
    Prop :=
  p.Tolerates .deleteAffinity e (Except.map (Released.reporting e))
    fun _ => {(Affinity.of host cidr).path}

theorem runFailing_cleanUp {disposition : Disposition} :
    (cleanUp host cidr disposition).runFailing .deleteAffinity e s =
      (.ok (Released.reporting e ⟨cidr, disposition, none⟩), s) :=
  Program.runFailing_call_of_kind rfl _ s

theorem isTolerant_cleanUp {disposition : Disposition} :
    IsTolerant e host cidr (cleanUp host cidr disposition) := by
  intro s
  rw [run_cleanUp, runFailing_cleanUp]
  exact ⟨rfl, s.sameOutside_answer (r := .deleteAffinity _) rfl⟩

theorem isTolerant_delete : IsTolerant e host cidr (delete host cidr) := by
  refine Program.tolerates_call nofun fun reply => ?_
  cases reply with
  | ok gone => exact isTolerant_cleanUp
  | error cause =>
    dsimp only
    split
    · exact isTolerant_cleanUp
    · exact Program.tolerates_done rfl

theorem isTolerant_round {again : Unit → Program (Outcome Released)}
    (hagain : IsTolerant e host cidr (again ())) :
    IsTolerant e host cidr (round host cidr again) := by
  refine Program.tolerates_call nofun fun reply => ?_
  cases reply with
  | error cause => exact Program.tolerates_done rfl
  | ok read =>
    dsimp only
    split
    · exact Program.tolerates_done rfl
    · split
      · exact isTolerant_delete
      · refine Program.tolerates_call nofun fun reply => ?_
        cases reply with
        | ok written => exact isTolerant_cleanUp
        | error cause =>
          dsimp only
          split
          · exact hagain
          · exact Program.tolerates_done rfl

theorem isTolerant_rounds (bound left : Nat) :
    IsTolerant e host cidr (rounds bound host cidr left) := by
  induction left with
  | zero => exact Program.tolerates_done rfl
  | succ left ih => exact isTolerant_round ih

end Release

/-- A claim whose affinity record cannot be made has the same result and leaves the same block records as
one whose record is made, whatever error the store gives. So does a release whose affinity record cannot
be removed, except that it reports the error if this does not mean that the record is gone. Of the affinity
records only the host's own for the claimed or released block can differ afterwards. -/
theorem index_failures_decide_nothing (e : StoreError) (host : String) (s : Store) :
    (∀ cidr policy,
      let ran := (claimBlock cidr host policy).run s
      let failed := (claimBlock cidr host policy).runFailing .createAffinity e s
      failed.1 = ran.1 ∧ ran.2.SameOutside {(Affinity.of host cidr).path} failed.2) ∧
    (∀ settings catalog words family requested policy,
      let claim := claimFree settings catalog words host family requested policy
      let ran := claim.run s
      let failed := claim.runFailing .createAffinity e s
      failed.1 = ran.1 ∧ ran.2.SameOutside
        {p | ∃ cidr, ran.1 = .ok cidr ∧ p = Affinity.path ⟨host, cidr⟩} failed.2) ∧
    ∀ bound cidr,
      let ran := (releaseBlock bound host cidr).run s
      let failed := (releaseBlock bound host cidr).runFailing .deleteAffinity e s
      failed.1 = ran.1.map (fun released =>
        { released with cleanupError := if e.isNotFound then none else some e }) ∧
      ran.2.SameOutside {(Affinity.of host cidr).path} failed.2 :=
  ⟨fun _ _ => Claim.tolerates_claimBlock s,
    fun settings catalog words family requested _ =>
      Claim.tolerates_claimFree settings catalog words family requested s,
    fun bound _ => Release.isTolerant_rounds bound bound s⟩

/-- The block is owned in both runs, and listed in one. -/
example :
    let cidr : Network := ⟨⟨.v4, 0x0A000000, by decide⟩, 26, by decide⟩
    let ran := (claimBlock cidr "a" ⟨false⟩).run .empty
    let failed := (claimBlock cidr "a" ⟨false⟩).runFailing .createAffinity (.backend "down") .empty
    failed.1 = .ok () ∧ failed.2.blocks = ran.2.blocks ∧
      ran.2.affinities.size = 1 ∧ failed.2.affinities.size = 0 := by
  decide +kernel

end HostBlocks
