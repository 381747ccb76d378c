import HostBlocks.Allocation.Release
import HostBlocks.Proofs.Transcripts
import Mathlib.Data.List.Chain

/-!
# Transcripts of a release

A release against any store is a number of rounds. A round reads the block, and it ends there, or with
one write, or with one more call after a write that gave the block up, or it was a conflict and the next
round begins. Every exchange tells by itself which of these it is, so the calls determine the result.
-/
namespace HostBlocks.Release

variable (host : String) (cidr : Network)

inductive GivesUp : Exchange → Disposition → Prop
  | deleted : GivesUp ⟨.deleteBlock cidr, .ok ()⟩ .deleted
  | absent {e : StoreError} (h : e.isNotFound) :
      GivesUp ⟨.deleteBlock cidr, .error e⟩ .deleted
  | cleared {v stored : Versioned Block} : GivesUp ⟨.updateBlock v, .ok stored⟩ .affinityCleared

inductive Refuses : Exchange → AllocationError → Prop
  | unread {e : StoreError} : Refuses ⟨.getBlock cidr, .error e⟩ (.store e)
  | foreign {read : Versioned Block} (h : read.value.isOwnedByOther host) :
      Refuses ⟨.getBlock cidr, .ok read⟩ (.claimedByOther read.value)
  | undeleted {e : StoreError} (h : ¬e.isNotFound) :
      Refuses ⟨.deleteBlock cidr, .error e⟩ (.store e)
  | uncleared {v : Versioned Block} {e : StoreError} (h : e.kind ≠ .updateConflict) :
      Refuses ⟨.updateBlock v, .error e⟩ (.store e)

/-- The call that comes after an exchange. -/
inductive LeadsTo : Exchange → Request → Prop
  | delete {read : Versioned Block} (ho : ¬read.value.isOwnedByOther host)
      (he : read.value.isEmpty) : LeadsTo ⟨.getBlock cidr, .ok read⟩ (.deleteBlock cidr)
  | clear {read : Versioned Block} (ho : ¬read.value.isOwnedByOther host)
      (he : ¬read.value.isEmpty) : LeadsTo ⟨.getBlock cidr, .ok read⟩
        (.updateBlock ⟨{ read.value with affinity := none }, read.revision⟩)
  | again {v : Versioned Block} {e : StoreError} (h : e.kind = .updateConflict) :
      LeadsTo ⟨.updateBlock v, .error e⟩ (.getBlock cidr)
  | cleanUp {x : Exchange} {disposition : Disposition} (h : GivesUp cidr x disposition) :
      LeadsTo x (.deleteAffinity ⟨host, cidr.trunc⟩)

inductive Conflicts : Nat → List Exchange → Prop
  | none : Conflicts 0 []
  | round {n : Nat} {read v : Versioned Block} {e : StoreError} {calls : List Exchange}
      (h : e.kind = .updateConflict) (hrest : Conflicts n calls) :
      Conflicts (n + 1) (⟨.getBlock cidr, .ok read⟩ :: ⟨.updateBlock v, .error e⟩ :: calls)

def leftover : Except StoreError Unit → Option StoreError
  | .ok _ => none
  | .error e => if e.isNotFound then none else some e

inductive Returns (x : Exchange) : List Exchange → Outcome Released → Prop
  | refused {e : AllocationError} (h : Refuses host cidr x e) : Returns x [] (.error e)
  | released {disposition : Disposition} {reply : Except StoreError Unit}
      (h : GivesUp cidr x disposition) :
      Returns x [⟨.deleteAffinity ⟨host, cidr.trunc⟩, reply⟩]
        (.ok ⟨cidr, disposition, leftover reply⟩)

/-- The calls of a release that has so many rounds left, and its result. -/
inductive Course (bound : Nat) : Nat → List Exchange → Outcome Released → Prop
  | exhausted : Course bound 0 [] (.error (.roundsExhausted cidr bound))
  | refused {n : Nat} {x : Exchange} {e : AllocationError} (hread : x.request = .getBlock cidr)
      (h : Refuses host cidr x e) : Course bound (n + 1) [x] (.error e)
  | written {n : Nat} {read : Versioned Block} {x : Exchange} {rest : List Exchange}
      {outcome : Outcome Released}
      (hwrite : LeadsTo host cidr ⟨.getBlock cidr, .ok read⟩ x.request)
      (h : Returns host cidr x rest outcome) :
      Course bound (n + 1) (⟨.getBlock cidr, .ok read⟩ :: x :: rest) outcome
  | conflict {n : Nat} {read v : Versioned Block} {e : StoreError} {rest : List Exchange}
      {outcome : Outcome Released}
      (hwrite : LeadsTo host cidr ⟨.getBlock cidr, .ok read⟩ (.updateBlock v))
      (h : e.kind = .updateConflict) (hrest : Course bound n rest outcome) :
      Course bound (n + 1) (⟨.getBlock cidr, .ok read⟩ :: ⟨.updateBlock v, .error e⟩ :: rest)
        outcome

variable {host cidr} {bound n : Nat} {calls : List Exchange} {outcome : Outcome Released}
variable {x : Exchange} {r : Request} {e e' : AllocationError} {d d' : Disposition}

theorem GivesUp.unique (h : GivesUp cidr x d) (h' : GivesUp cidr x d') : d = d' := by
  cases h <;> cases h' <;> rfl

theorem Refuses.unique (h : Refuses host cidr x e) (h' : Refuses host cidr x e') : e = e' := by
  cases h <;> cases h' <;> rfl

theorem GivesUp.not_refuses (h : GivesUp cidr x d) : ¬Refuses host cidr x e := by
  intro h'
  cases h with
  | deleted => cases h'
  | absent hkind =>
    cases h' with
    | undeleted hne => exact hne hkind
  | cleared => cases h'

theorem Refuses.not_conflict {v : Versioned Block} {cause : StoreError}
    (h : Refuses host cidr ⟨.updateBlock v, .error cause⟩ e) : cause.kind ≠ .updateConflict := by
  cases h with
  | uncleared hne => exact hne

/-- An exchange that is followed by another call was not refused. -/
theorem LeadsTo.not_refuses (h : LeadsTo host cidr x r) : ¬Refuses host cidr x e := by
  intro h'
  cases h with
  | delete ho =>
    cases h' with
    | foreign hother => exact ho hother
  | clear ho =>
    cases h' with
    | foreign hother => exact ho hother
  | again hkind => exact h'.not_conflict hkind
  | cleanUp hgiven => exact hgiven.not_refuses h'

/-- After a read comes a write. -/
theorem LeadsTo.kind_of_read {read : Versioned Block}
    (h : LeadsTo host cidr ⟨.getBlock cidr, .ok read⟩ r) :
    r.kind = .deleteBlock ∨ r.kind = .updateBlock := by
  cases h with
  | delete => exact Or.inl rfl
  | clear => exact Or.inr rfl
  | cleanUp hgiven => cases hgiven

theorem LeadsTo.kind_ne_deleteAffinity (h : LeadsTo host cidr x r) :
    x.request.kind ≠ .deleteAffinity := by
  cases h with
  | delete | clear | again => exact nofun
  | cleanUp hgiven => cases hgiven <;> exact nofun

theorem returns_of_cleanUp (hgiven : GivesUp cidr x d)
    (h : (cleanUp host cidr d).Transcript calls outcome) : Returns host cidr x calls outcome := by
  obtain ⟨reply, rest, rfl, hrest⟩ := Program.transcript_call_iff.1 h
  cases reply with
  | ok _ | error e =>
    obtain ⟨rfl, rfl⟩ := Program.transcript_done_iff.1 hrest
    exact .released hgiven

theorem returns_of_delete (h : (delete host cidr).Transcript calls outcome) :
    ∃ x rest, x.request = .deleteBlock cidr ∧ calls = x :: rest ∧
      Returns host cidr x rest outcome := by
  obtain ⟨reply, rest, rfl, hrest⟩ := Program.transcript_call_iff.1 h
  refine ⟨⟨.deleteBlock cidr, reply⟩, rest, rfl, rfl, ?_⟩
  cases reply with
  | ok _ => exact returns_of_cleanUp .deleted hrest
  | error e =>
    dsimp only at hrest
    split at hrest
    · next habsent => exact returns_of_cleanUp (.absent habsent) hrest
    · next hkept =>
      obtain ⟨rfl, rfl⟩ := Program.transcript_done_iff.1 hrest
      exact .refused (.undeleted hkept)

theorem returns_of_clear {read : Versioned Block} {again : Unit → Program (Outcome Released)}
    (h : (clear host cidr read again).Transcript calls outcome) :
    ∃ reply rest, calls = ⟨.updateBlock ⟨read.value.released, read.revision⟩, reply⟩ :: rest ∧
      (Returns host cidr ⟨.updateBlock ⟨read.value.released, read.revision⟩, reply⟩ rest outcome ∨
        ∃ e, reply = .error e ∧ e.kind = .updateConflict ∧
          (again ()).Transcript rest outcome) := by
  obtain ⟨reply, rest, rfl, hrest⟩ := Program.transcript_call_iff.1 h
  refine ⟨reply, rest, rfl, ?_⟩
  cases reply with
  | ok _ => exact Or.inl (returns_of_cleanUp .cleared hrest)
  | error e =>
    dsimp only at hrest
    split at hrest
    · next hkind => exact Or.inr ⟨e, rfl, hkind, hrest⟩
    · next hkind =>
      obtain ⟨rfl, rfl⟩ := Program.transcript_done_iff.1 hrest
      exact Or.inl (.refused (.uncleared hkind))

theorem course_of_rounds (h : (rounds bound host cidr n).Transcript calls outcome) :
    Course host cidr bound n calls outcome := by
  induction n generalizing calls with
  | zero =>
    obtain ⟨rfl, rfl⟩ := Program.transcript_done_iff.1 h
    exact .exhausted
  | succ n ih =>
    obtain ⟨reply, rest, rfl, hrest⟩ := Program.transcript_call_iff.1 h
    cases reply with
    | error e =>
      obtain ⟨rfl, rfl⟩ := Program.transcript_done_iff.1 hrest
      exact .refused rfl .unread
    | ok read =>
      dsimp only at hrest
      split at hrest
      · next ho =>
        obtain ⟨rfl, rfl⟩ := Program.transcript_done_iff.1 hrest
        exact .refused rfl (.foreign ho)
      · next ho =>
        split at hrest
        · next he =>
          obtain ⟨x, rest, hx, rfl, hreturns⟩ := returns_of_delete hrest
          exact .written (hx ▸ .delete ho he) hreturns
        · next he =>
          obtain ⟨reply, rest, rfl, hreturns | ⟨e, rfl, hkind, hagain⟩⟩ := returns_of_clear hrest
          · exact .written (.clear ho he) hreturns
          · exact .conflict (.clear ho he) hkind (ih hagain)

namespace Returns

variable {y : Exchange} {rest : List Exchange} (h : Returns host cidr y rest outcome)

include h

theorem eq_of_refuses (hx : x ∈ y :: rest) (hr : Refuses host cidr x e) : outcome = .error e := by
  cases h with
  | refused hr' =>
    obtain rfl := List.mem_singleton.1 hx
    rw [hr.unique hr']
  | released hgiven =>
    rcases List.mem_pair.1 hx with rfl | rfl
    · exact absurd hr hgiven.not_refuses
    · cases hr

theorem eq_of_givesUp (hx : x ∈ y :: rest) (hg : GivesUp cidr x d) :
    ∃ reply, y :: rest = [x, ⟨.deleteAffinity ⟨host, cidr.trunc⟩, reply⟩] ∧
      outcome = .ok ⟨cidr, d, leftover reply⟩ := by
  cases h with
  | refused hr =>
    obtain rfl := List.mem_singleton.1 hx
    exact absurd hr hg.not_refuses
  | @released _ reply hgiven =>
    rcases List.mem_pair.1 hx with rfl | rfl
    · rw [hg.unique hgiven]
      exact ⟨reply, rfl, rfl⟩
    · cases hg

end Returns

/-- Only the last call of a chain may be one that leads nowhere. -/
theorem exists_of_mem_dropLast {R : Exchange → Exchange → Prop} (h : calls.IsChain R)
    (hx : x ∈ calls.dropLast) : ∃ y, R x y := by
  induction h with
  | nil => cases hx
  | singleton => cases hx
  | cons_cons hr _ ih =>
    rcases List.mem_cons.1 hx with rfl | hx
    · exact ⟨_, hr⟩
    · exact ih hx

namespace Course

variable (h : Course host cidr bound n calls outcome)

include h

theorem count_getBlock_le : (calls.map (·.request.kind)).count .getBlock ≤ n := by
  induction h with
  | exhausted => exact Nat.le_refl 0
  | refused => exact List.count_le_length.trans (Nat.succ_le_succ (Nat.zero_le _))
  | @written _ _ x rest _ hwrite hreturns =>
    have hx : x.request.kind ≠ .getBlock := by
      intro hkind
      rcases hwrite.kind_of_read with h | h <;> cases hkind.symm.trans h
    have hrest : (rest.map (·.request.kind)).count .getBlock = 0 := by cases hreturns <;> rfl
    change (.getBlock :: x.request.kind :: rest.map _ : List Request.Kind).count .getBlock ≤ _
    rw [List.count_cons_self, List.count_cons_of_ne hx, hrest]
    omega
  | @conflict _ _ _ _ rest _ _ _ _ ih =>
    change (.getBlock :: .updateBlock :: rest.map _ : List Request.Kind).count .getBlock ≤ _
    rw [List.count_cons_self, List.count_cons_of_ne (by decide)]
    exact Nat.succ_le_succ ih

theorem chain : (∀ x ∈ calls.head?, x.request = .getBlock cidr) ∧
    calls.IsChain fun x y => LeadsTo host cidr x y.request := by
  induction h with
  | exhausted => exact ⟨nofun, .nil⟩
  | refused hread => exact ⟨by simpa using hread, .singleton _⟩
  | written hwrite hreturns =>
    refine ⟨by simp, ?_⟩
    cases hreturns with
    | refused => exact .cons_cons hwrite (.singleton _)
    | released hgiven => exact .cons_cons hwrite (.cons_cons (.cleanUp hgiven) (.singleton _))
  | conflict hwrite hkind _ ih =>
    obtain ⟨hfirst, hchain⟩ := ih
    refine ⟨by simp, .cons_cons hwrite (List.isChain_cons.2 ⟨fun y hy => ?_, hchain⟩)⟩
    rw [hfirst y hy]
    exact .again hkind

theorem eq_of_refuses (hx : x ∈ calls) (hr : Refuses host cidr x e) : outcome = .error e := by
  induction h with
  | exhausted => cases hx
  | refused _ hr' =>
    obtain rfl := List.mem_singleton.1 hx
    rw [hr.unique hr']
  | written hwrite hreturns =>
    rcases List.mem_cons.1 hx with rfl | hx
    · exact absurd hr hwrite.not_refuses
    · exact hreturns.eq_of_refuses hx hr
  | conflict hwrite hkind _ ih =>
    rcases List.mem_cons.1 hx with rfl | hx
    · exact absurd hr hwrite.not_refuses
    rcases List.mem_cons.1 hx with rfl | hx
    · exact absurd hkind hr.not_conflict
    · exact ih hx

theorem eq_of_givesUp (hx : x ∈ calls) (hg : GivesUp cidr x d) :
    ∃ front reply, calls = front ++ [x, ⟨.deleteAffinity ⟨host, cidr.trunc⟩, reply⟩] ∧
      outcome = .ok ⟨cidr, d, leftover reply⟩ := by
  induction h with
  | exhausted => cases hx
  | refused _ hr =>
    obtain rfl := List.mem_singleton.1 hx
    exact absurd hr hg.not_refuses
  | @written _ read _ _ _ _ hreturns =>
    rcases List.mem_cons.1 hx with rfl | hx
    · cases hg
    obtain ⟨reply, hcalls, rfl⟩ := hreturns.eq_of_givesUp hx hg
    exact ⟨[⟨.getBlock cidr, .ok read⟩], reply, congrArg _ hcalls, rfl⟩
  | @conflict _ read v e _ _ _ _ _ ih =>
    rcases List.mem_cons.1 hx with rfl | hx
    · cases hg
    rcases List.mem_cons.1 hx with rfl | hx
    · cases hg
    obtain ⟨front, reply, rfl, rfl⟩ := ih hx
    exact ⟨⟨.getBlock cidr, .ok read⟩ :: ⟨.updateBlock v, .error e⟩ :: front, reply, rfl, rfl⟩

/-- A release that ran out of rounds met a conflict in each. -/
theorem exhausted_iff :
    outcome = .error (.roundsExhausted cidr bound) ↔ Conflicts cidr n calls := by
  induction h with
  | exhausted => exact iff_of_true rfl .none
  | refused hread hr =>
    refine iff_of_false (fun he => ?_) nofun
    cases he
    cases hr
  | written hwrite hreturns =>
    refine iff_of_false (fun he => ?_) (fun hc => ?_)
    · cases hreturns with
      | refused hr =>
        cases he
        cases hr
      | released => cases he
    · cases hc with
      | round hkind =>
        cases hreturns with
        | refused hr => exact hr.not_conflict hkind
        | released hgiven => cases hgiven
  | conflict _ hkind _ ih =>
    rw [ih]
    constructor
    · exact .round hkind
    · intro hc
      cases hc with
      | round _ hrest => exact hrest

theorem exists_end :
    outcome = .error (.roundsExhausted cidr bound) ∨
      (∃ x ∈ calls, ∃ e, Refuses host cidr x e ∧ outcome = .error e) ∨
      ∃ x ∈ calls, ∃ d, GivesUp cidr x d := by
  induction h with
  | exhausted => exact Or.inl rfl
  | refused _ hr => exact Or.inr (Or.inl ⟨_, List.mem_singleton_self _, _, hr, rfl⟩)
  | written _ hreturns =>
    cases hreturns with
    | refused hr => exact Or.inr (Or.inl ⟨_, by simp, _, hr, rfl⟩)
    | released hgiven => exact Or.inr (Or.inr ⟨_, by simp, _, hgiven⟩)
  | conflict _ _ _ ih =>
    rcases ih with he | ⟨x, hx, e, hr, he⟩ | ⟨x, hx, d, hg⟩
    · exact Or.inl he
    · exact Or.inr (Or.inl ⟨x, List.mem_cons_of_mem _ (List.mem_cons_of_mem _ hx), e, hr, he⟩)
    · exact Or.inr (Or.inr ⟨x, List.mem_cons_of_mem _ (List.mem_cons_of_mem _ hx), d, hg⟩)

end Course

inductive Concludes (host : String) (cidr : Network) (bound : Nat) (calls : List Exchange) :
    Outcome Released → Prop
  | released {front : List Exchange} {x : Exchange} {disposition : Disposition}
      {reply : Except StoreError Unit} (h : GivesUp cidr x disposition)
      (hcalls : calls = front ++ [x, ⟨.deleteAffinity ⟨host, cidr.trunc⟩, reply⟩]) :
      Concludes host cidr bound calls (.ok ⟨cidr, disposition, leftover reply⟩)
  | refused {x : Exchange} {e : AllocationError} (h : Refuses host cidr x e) (hx : x ∈ calls) :
      Concludes host cidr bound calls (.error e)
  | exhausted (h : Conflicts cidr bound calls) :
      Concludes host cidr bound calls (.error (.roundsExhausted cidr bound))

theorem Course.concludes_iff (h : Course host cidr bound bound calls outcome)
    (outcome' : Outcome Released) :
    outcome = outcome' ↔ Concludes host cidr bound calls outcome' := by
  constructor
  · rintro rfl
    rcases h.exists_end with rfl | ⟨x, hx, e, hr, rfl⟩ | ⟨x, hx, d, hg⟩
    · exact .exhausted (h.exhausted_iff.1 rfl)
    · exact .refused hr hx
    · obtain ⟨front, reply, hcalls, rfl⟩ := h.eq_of_givesUp hx hg
      exact .released hg hcalls
  · intro hc
    cases hc with
    | @released front x d reply hg hcalls =>
      obtain ⟨front', reply', hcalls', rfl⟩ := h.eq_of_givesUp (hcalls ▸ by simp) hg
      have hlast := congrArg List.getLast? (hcalls.symm.trans hcalls')
      simp only [List.getLast?_append, List.getLast?_cons_cons, List.getLast?_singleton,
        Option.some_or, Option.some.injEq, Exchange.mk.injEq, heq_eq_eq, true_and] at hlast
      rw [hlast]
    | refused hr hx => exact h.eq_of_refuses hx hr
    | exhausted hc => exact h.exhausted_iff.2 hc

/-- Whatever the store replies, a release makes at most so many rounds. Each begins with a read, and a
write follows only on a block that was read as the host's or nobody's: a deletion if it was empty, and
else an update of what was read. The affinity record is removed last, exactly if a write gave the block
up. The result is as the calls conclude: running out of rounds if each of them met a conflict, the
block that another host owns if one was read, and any other error of the store but that of the removal,
which is reported with the success. -/
theorem release_keeps_protocol (bound : Nat) (host : String) (cidr : Network) (b : Responder) :
    let ran := (releaseBlock bound host cidr).converse b
    let calls := ran.2
    (calls.map (·.request.kind)).count .getBlock ≤ bound ∧
    (∀ x ∈ calls.head?, x.request = .getBlock cidr) ∧
    calls.IsChain (fun x y => LeadsTo host cidr x y.request) ∧
    (∀ x ∈ calls.dropLast, x.request.kind ≠ .deleteAffinity) ∧
    (∀ x disposition, GivesUp cidr x disposition → (x ∈ calls ↔
      ∃ front reply, calls = front ++ [x, ⟨.deleteAffinity ⟨host, cidr.trunc⟩, reply⟩])) ∧
    ∀ outcome, ran.1 = outcome ↔ Concludes host cidr bound calls outcome := by
  intro ran calls
  have h : Course host cidr bound bound calls ran.1 :=
    course_of_rounds (Program.transcript_converse _ b)
  obtain ⟨hfirst, hchain⟩ := h.chain
  refine ⟨h.count_getBlock_le, hfirst, hchain, fun x hx => ?_, fun x d hg => ⟨fun hx => ?_, ?_⟩,
    h.concludes_iff⟩
  · obtain ⟨y, hleads⟩ := exists_of_mem_dropLast hchain hx
    exact hleads.kind_ne_deleteAffinity
  · obtain ⟨front, reply, hcalls, -⟩ := h.eq_of_givesUp hx hg
    exact ⟨front, reply, hcalls⟩
  · rintro ⟨front, reply, hcalls⟩
    rw [hcalls]
    simp

end HostBlocks.Release
