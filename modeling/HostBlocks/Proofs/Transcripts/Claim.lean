import HostBlocks.Proofs.Search
import HostBlocks.Proofs.Transcripts

/-!
# Transcripts of a claim

A claim of any free block against any store looks at its candidates in turn while the store has a record
of each. The first reply that is an error ends the search. If it says that there is no record, the claim
of that candidate follows, which is two to four calls, and otherwise the error is returned.
-/
namespace HostBlocks.Claim

def withdrawn (block : Block) : Except StoreError Unit → AllocationError
  | .ok _ => .claimedByOther block
  | .error e => if e.isNotFound then .claimedByOther block else .store e

section

variable (host : String) (policy : Policy)

inductive Settles (cidr : Network) :
    Except StoreError (Versioned Block) → List Exchange → Outcome Network → Prop
  | created {stored : Versioned Block} : Settles cidr (.ok stored) [] (.ok cidr)
  | failed {e : StoreError} (h : e.kind ≠ .alreadyExists) :
      Settles cidr (.error e) [] (.error (.store e))
  | unread {e cause : StoreError} (h : e.kind = .alreadyExists) :
      Settles cidr (.error e) [⟨.getBlock cidr, .error cause⟩] (.error (.store cause))
  | own {e : StoreError} {found : Versioned Block} (h : e.kind = .alreadyExists)
      (ho : found.value.isOwnedBy host) :
      Settles cidr (.error e) [⟨.getBlock cidr, .ok found⟩] (.ok cidr)
  | lost {e : StoreError} {found : Versioned Block} {reply : Except StoreError Unit}
      (h : e.kind = .alreadyExists) (ho : ¬found.value.isOwnedBy host) :
      Settles cidr (.error e)
        [⟨.getBlock cidr, .ok found⟩, ⟨.deleteAffinity ⟨host, cidr⟩, reply⟩]
        (.error (withdrawn found.value reply))

/-- The calls of a search through candidates without host bits, and its result. -/
inductive Course (family : Family) : List Network → List Exchange → Outcome Network → Prop
  | exhausted : Course family [] [] (.error (.noFreeBlocks family))
  | passed {cidr : Network} {later : List Network} {stored : Versioned Block}
      {calls : List Exchange} {outcome : Outcome Network} (hrest : Course family later calls outcome) :
      Course family (cidr :: later) (⟨.getBlock cidr, .ok stored⟩ :: calls) outcome
  | failed {cidr : Network} {later : List Network} {e : StoreError} (h : ¬e.isNotFound) :
      Course family (cidr :: later) [⟨.getBlock cidr, .error e⟩] (.error (.store e))
  | free {cidr : Network} {later : List Network} {e : StoreError}
      {listed : Except StoreError (Versioned Affinity)}
      {created : Except StoreError (Versioned Block)} {calls : List Exchange}
      {outcome : Outcome Network} (h : e.isNotFound)
      (hclaim : Settles host cidr created calls outcome) :
      Course family (cidr :: later)
        (⟨.getBlock cidr, .error e⟩ :: ⟨.createAffinity ⟨host, cidr⟩, listed⟩ ::
          ⟨.createBlock ⟨cidr, some host, policy.strictAffinity, ∅⟩, created⟩ :: calls) outcome

end

variable {host : String} {policy : Policy} {family : Family} {cidr : Network}
variable {calls : List Exchange}

theorem transcript_withdraw {block : Block} {outcome : Outcome Unit}
    (h : (withdraw cidr host block).Transcript calls outcome) :
    ∃ reply, calls = [⟨.deleteAffinity (.of host cidr), reply⟩] ∧
      outcome = .error (withdrawn block reply) := by
  obtain ⟨reply, rest, rfl, hrest⟩ := Program.transcript_call_iff.1 h
  refine ⟨reply, ?_⟩
  cases reply with
  | ok _ =>
    obtain ⟨rfl, rfl⟩ := Program.transcript_done_iff.1 hrest
    exact ⟨rfl, rfl⟩
  | error e =>
    dsimp only at hrest
    split at hrest
    · next hgone =>
      obtain ⟨rfl, rfl⟩ := Program.transcript_done_iff.1 hrest
      exact ⟨rfl, by rw [withdrawn, if_pos hgone]⟩
    · next hkept =>
      obtain ⟨rfl, rfl⟩ := Program.transcript_done_iff.1 hrest
      exact ⟨rfl, by rw [withdrawn, if_neg hkept]⟩

theorem transcript_reread {outcome : Outcome Unit}
    (h : (reread cidr host).Transcript calls outcome) :
    (∃ e, calls = [⟨.getBlock cidr, .error e⟩] ∧ outcome = .error (.store e)) ∨
    (∃ found : Versioned Block, found.value.isOwnedBy host ∧
      calls = [⟨.getBlock cidr, .ok found⟩] ∧ outcome = .ok ()) ∨
    ∃ (found : Versioned Block) (reply : Except StoreError Unit), ¬found.value.isOwnedBy host ∧
      calls = [⟨.getBlock cidr, .ok found⟩, ⟨.deleteAffinity (.of host cidr), reply⟩] ∧
      outcome = .error (withdrawn found.value reply) := by
  obtain ⟨reply, rest, rfl, hrest⟩ := Program.transcript_call_iff.1 h
  cases reply with
  | error e =>
    obtain ⟨rfl, rfl⟩ := Program.transcript_done_iff.1 hrest
    exact Or.inl ⟨e, rfl, rfl⟩
  | ok found =>
    dsimp only at hrest
    split at hrest
    · next ho =>
      obtain ⟨rfl, rfl⟩ := Program.transcript_done_iff.1 hrest
      exact Or.inr (Or.inl ⟨found, ho, rfl, rfl⟩)
    · next ho =>
      obtain ⟨reply, rfl, rfl⟩ := transcript_withdraw hrest
      exact Or.inr (Or.inr ⟨found, reply, ho, rfl, rfl⟩)

theorem settles_of_found {outcome : Outcome Network} (hclear : cidr.trunc = cidr)
    (h : (found cidr host policy).Transcript calls outcome) :
    ∃ listed created rest, calls = ⟨.createAffinity ⟨host, cidr⟩, listed⟩ ::
        ⟨.createBlock ⟨cidr, some host, policy.strictAffinity, ∅⟩, created⟩ :: rest ∧
      Settles host cidr created rest outcome := by
  obtain ⟨result, hclaim, rfl⟩ := Program.transcript_map_iff.1 h
  obtain ⟨listed, rest, rfl, hcreate⟩ := Program.transcript_call_iff.1 hclaim
  obtain ⟨created, rest, rfl, hrest⟩ := Program.transcript_call_iff.1 hcreate
  rw [Affinity.of, Block.claimed, Block.of, hclear]
  refine ⟨listed, created, rest, rfl, ?_⟩
  cases created with
  | ok stored =>
    obtain ⟨rfl, rfl⟩ := Program.transcript_done_iff.1 hrest
    exact .created
  | error e =>
    dsimp only at hrest
    split at hrest
    · next hkind =>
      rcases transcript_reread hrest with ⟨cause, rfl, rfl⟩ | ⟨found, ho, rfl, rfl⟩ |
        ⟨found, reply, ho, rfl, rfl⟩
      · exact .unread hkind
      · exact .own hkind ho
      · rw [Affinity.of, hclear]
        exact .lost hkind ho
    · next hkind =>
      obtain ⟨rfl, rfl⟩ := Program.transcript_done_iff.1 hrest
      exact .failed hkind

theorem course_of_probe {candidates : List Network} {outcome : Outcome Network}
    (hclear : ∀ c ∈ candidates, c.trunc = c)
    (h : (probe host policy (.done (.error (.noFreeBlocks family))) candidates).Transcript
      calls outcome) : Course host policy family candidates calls outcome := by
  induction candidates generalizing calls with
  | nil =>
    obtain ⟨rfl, rfl⟩ := Program.transcript_done_iff.1 h
    exact .exhausted
  | cons cidr later ih =>
    obtain ⟨hcidr, hlater⟩ := List.forall_mem_cons.1 hclear
    obtain ⟨reply, rest, rfl, hrest⟩ := Program.transcript_call_iff.1 h
    cases reply with
    | ok stored => exact .passed (ih hlater hrest)
    | error e =>
      dsimp only at hrest
      split at hrest
      · next hfree =>
        obtain ⟨listed, created, rest, rfl, hclaim⟩ := settles_of_found hcidr hrest
        exact .free hfree hclaim
      · next hfailed =>
        obtain ⟨rfl, rfl⟩ := Program.transcript_done_iff.1 hrest
        exact .failed hfailed

/-- What a claim of any free block returns, by its calls. -/
inductive Concludes (host : String) (policy : Policy) (family : Family) (calls : List Exchange) :
    Outcome Network → Prop
  | created {cidr : Network} {stored : Versioned Block}
      (hcalls : ⟨.createBlock ⟨cidr, some host, policy.strictAffinity, ∅⟩, .ok stored⟩ ∈ calls) :
      Concludes host policy family calls (.ok cidr)
  | own {cidr : Network} {e : StoreError} {found : Versioned Block} (h : e.kind = .alreadyExists)
      (ho : found.value.isOwnedBy host)
      (hcalls : [⟨.createBlock ⟨cidr, some host, policy.strictAffinity, ∅⟩, .error e⟩,
        ⟨.getBlock cidr, .ok found⟩] <:+ calls) : Concludes host policy family calls (.ok cidr)
  | lost {cidr : Network} {e : StoreError} {found : Versioned Block} {reply : Except StoreError Unit}
      (h : e.kind = .alreadyExists) (ho : ¬found.value.isOwnedBy host)
      (hgone : ∀ cause, reply = .error cause → cause.isNotFound)
      (hcalls : [⟨.createBlock ⟨cidr, some host, policy.strictAffinity, ∅⟩, .error e⟩,
        ⟨.getBlock cidr, .ok found⟩, ⟨.deleteAffinity ⟨host, cidr⟩, reply⟩] <:+ calls) :
      Concludes host policy family calls (.error (.claimedByOther found.value))
  | failed {x : Exchange} {e : StoreError} (hlast : calls.getLast? = some x) (he : x.error = some e)
      (h : x.request.kind = .deleteAffinity → ¬e.isNotFound) :
      Concludes host policy family calls (.error (.store e))
  | exhausted (h : ∀ x ∈ calls, x.request.kind = .getBlock ∧ x.error = none) :
      Concludes host policy family calls (.error (.noFreeBlocks family))

variable {cs : List Network} {outcome outcome' : Outcome Network} {x : Exchange}

theorem withdrawn_of_gone {block : Block} {reply : Except StoreError Unit}
    (h : ∀ cause, reply = .error cause → cause.isNotFound) :
    withdrawn block reply = .claimedByOther block := by
  cases reply with
  | ok _ => rfl
  | error cause => exact if_pos (h cause rfl)

/-- The result by the calls, latest first. That it is a function of them is what makes the ways to
conclude exclude each other. -/
def verdict (family : Family) : List Exchange → Outcome Network
  | ⟨.createBlock block, .ok _⟩ :: _ => .ok block.cidr
  | ⟨.getBlock cidr, .ok _⟩ :: ⟨.createBlock _, _⟩ :: _ => .ok cidr
  | ⟨.deleteAffinity _, reply⟩ :: ⟨.getBlock _, .ok found⟩ :: _ =>
    .error (withdrawn found.value reply)
  | ⟨_, .error e⟩ :: _ => .error (.store e)
  | _ => .error (.noFreeBlocks family)

theorem verdict_error {e : StoreError} {r : Request} (rest : List Exchange)
    (h : r.kind = .deleteAffinity → ¬e.isNotFound) :
    verdict family (⟨r, .error e⟩ :: rest) = .error (.store e) := by
  cases r with
  | deleteAffinity affinity =>
    have hkept : ∀ block, withdrawn block (.error e) = .store e := fun _ => if_neg (h rfl)
    unfold verdict
    split
    · next heq => cases heq
    · next heq => cases heq
    · next heq =>
      cases heq
      rw [hkept]
    · next heq =>
      cases heq
      rfl
    · next hne => exact absurd rfl (hne _ _ _)
  | _ => rfl

theorem verdict_looked (h : ∀ x ∈ calls, x.request.kind = .getBlock ∧ x.error = none) :
    verdict family calls = .error (.noFreeBlocks family) := by
  have hfound : ∀ x : Exchange, x.request.kind = .getBlock ∧ x.error = none →
      ∃ cidr stored, x = ⟨.getBlock cidr, .ok stored⟩ := by
    rintro ⟨r, reply⟩ ⟨hkind, hnone⟩
    cases r with
    | getBlock cidr =>
      cases reply with
      | ok stored => exact ⟨cidr, stored, rfl⟩
      | error e => cases hnone
    | _ => cases hkind
  cases calls with
  | nil => rfl
  | cons x rest =>
    obtain ⟨hx, hrest⟩ := List.forall_mem_cons.1 h
    obtain ⟨cidr, stored, rfl⟩ := hfound x hx
    cases rest with
    | nil => rfl
    | cons y rest =>
      obtain ⟨cidr', stored', rfl⟩ := hfound y (List.forall_mem_cons.1 hrest).1
      rfl

/-- Calls that conclude a claim tell its result, provided that it ends once a record is created. -/
theorem Concludes.eq_verdict (h : Concludes host policy family calls outcome)
    (hlast : ∀ block stored, ⟨.createBlock block, .ok stored⟩ ∈ calls →
      [⟨.createBlock block, .ok stored⟩] <:+ calls) :
    outcome = verdict family calls.reverse := by
  cases h with
  | created hcalls =>
    obtain ⟨front, rfl⟩ := hlast _ _ hcalls
    rw [List.reverse_append]
    rfl
  | own _ _ hcalls =>
    obtain ⟨front, rfl⟩ := hcalls
    rw [List.reverse_append]
    rfl
  | lost _ _ hgone hcalls =>
    obtain ⟨front, rfl⟩ := hcalls
    rw [List.reverse_append]
    exact congrArg Except.error (withdrawn_of_gone hgone).symm
  | @failed x e hlast he h =>
    obtain ⟨front, rfl⟩ := List.getLast?_eq_some_iff.1 hlast
    obtain ⟨r, reply⟩ := x
    cases reply with
    | ok _ => cases he
    | error e' =>
      cases he
      rw [List.reverse_append]
      exact (verdict_error _ h).symm
  | exhausted h => exact (verdict_looked fun x hx => h x (List.mem_reverse.1 hx)).symm

theorem Concludes.passed {stored : Versioned Block}
    (h : Concludes host policy family calls outcome) :
    Concludes host policy family (⟨.getBlock cidr, .ok stored⟩ :: calls) outcome := by
  cases h with
  | created hcalls => exact .created (List.mem_cons_of_mem _ hcalls)
  | own h ho hcalls => exact .own h ho (hcalls.trans (List.suffix_cons _ _))
  | lost h ho hgone hcalls => exact .lost h ho hgone (hcalls.trans (List.suffix_cons _ _))
  | failed hlast he h => exact .failed (by rw [List.getLast?_cons, hlast]; rfl) he h
  | exhausted h => exact .exhausted (List.forall_mem_cons.2 ⟨⟨rfl, rfl⟩, h⟩)

theorem Course.concludes (h : Course host policy family cs calls outcome) :
    Concludes host policy family calls outcome := by
  induction h with
  | exhausted => exact .exhausted nofun
  | passed _ ih => exact ih.passed
  | failed h => exact .failed rfl rfl nofun
  | free _ hclaim =>
    cases hclaim with
    | created =>
      exact .created (List.mem_cons_of_mem _ (List.mem_cons_of_mem _ List.mem_cons_self))
    | failed => exact .failed rfl rfl nofun
    | unread => exact .failed rfl rfl nofun
    | own h ho => exact .own h ho ⟨[_, _], rfl⟩
    | @lost _ found reply h ho =>
      by_cases hgone : ∀ cause, reply = .error cause → cause.isNotFound
      · rw [withdrawn_of_gone hgone]
        exact .lost h ho hgone ⟨[_, _], rfl⟩
      · simp only [not_forall] at hgone
        obtain ⟨cause, rfl, hkept⟩ := hgone
        rw [withdrawn, if_neg hkept]
        exact .failed rfl rfl fun _ => hkept

/-- The claim of a block ends if its record is created. -/
theorem Course.created_last (h : Course host policy family cs calls outcome) (block : Block)
    (stored : Versioned Block) (hmem : ⟨.createBlock block, .ok stored⟩ ∈ calls) :
    [⟨.createBlock block, .ok stored⟩] <:+ calls := by
  induction h with
  | exhausted => cases hmem
  | passed _ ih =>
    rcases List.mem_cons.1 hmem with heq | hmem
    · cases heq
    · exact (ih hmem).trans (List.suffix_cons _ _)
  | failed => cases List.mem_singleton.1 hmem
  | free _ hclaim =>
    cases hclaim with
    | created =>
      rcases List.mem_cons.1 hmem with heq | hmem
      · cases heq
      rcases List.mem_pair.1 hmem with heq | heq
      · cases heq
      · rw [heq]
        exact ⟨[_, _], rfl⟩
    | _ => simp at hmem

theorem Course.concludes_iff (h : Course host policy family cs calls outcome)
    (outcome' : Outcome Network) :
    outcome = outcome' ↔ Concludes host policy family calls outcome' := by
  constructor
  · rintro rfl
    exact h.concludes
  · intro hc
    rw [h.concludes.eq_verdict h.created_last, hc.eq_verdict h.created_last]

/-- The kinds of the calls are those of a search, and then as far as the claim of a block came. -/
theorem Course.exists_kinds (h : Course host policy family cs calls outcome) :
    ∃ n tail, calls.map (·.request.kind) = List.replicate n .getBlock ++ tail ∧
      tail.Sublist [.createAffinity, .createBlock, .getBlock, .deleteAffinity] := by
  induction h with
  | exhausted => exact ⟨0, [], rfl, List.nil_sublist _⟩
  | passed _ ih =>
    obtain ⟨n, tail, hkinds, hsub⟩ := ih
    exact ⟨n + 1, tail, congrArg (List.cons Request.Kind.getBlock) hkinds, hsub⟩
  | failed => exact ⟨1, [], rfl, List.nil_sublist _⟩
  | free _ hclaim =>
    cases hclaim with
    | created | failed => exact ⟨1, [.createAffinity, .createBlock], rfl, by decide⟩
    | unread | own => exact ⟨1, [.createAffinity, .createBlock, .getBlock], rfl, by decide⟩
    | lost => exact ⟨1, _, rfl, List.Sublist.refl _⟩

theorem Course.count_createBlock_le (h : Course host policy family cs calls outcome) :
    (calls.map (·.request.kind)).count .createBlock ≤ 1 := by
  obtain ⟨n, tail, hkinds, hsub⟩ := h.exists_kinds
  have hsearch : (List.replicate n Request.Kind.getBlock).count .createBlock = 0 :=
    List.count_eq_zero.2 fun hmem => nomatch List.eq_of_mem_replicate hmem
  have htail := hsub.count_le .createBlock
  rw [hkinds, List.count_append, hsearch, Nat.zero_add]
  exact htail

theorem Course.kind_notMem (h : Course host policy family cs calls outcome) (hx : x ∈ calls) :
    x.request.kind ∉ [.updateBlock, .deleteBlock, .listAffinities] := by
  obtain ⟨n, tail, hkinds, hsub⟩ := h.exists_kinds
  have hkind : x.request.kind ∈ List.replicate n .getBlock ++ tail := by
    rw [← hkinds]
    exact List.mem_map_of_mem hx
  rcases List.mem_append.1 hkind with hmem | hmem
  · rw [List.eq_of_mem_replicate hmem]
    decide
  · have hall : ∀ kind ∈ [Request.Kind.createAffinity, .createBlock, .getBlock, .deleteAffinity],
        kind ∉ [.updateBlock, .deleteBlock, .listAffinities] := by decide
    exact hall _ (hsub.subset hmem)

/-- Whatever the store replies, a claim that may search its pools looks at their blocks in turn until
the first reply that is an error. Only if that says that there is no record does it write: it claims
that block, in two to four calls, and creates at most one record. The result is as the calls conclude:
the block if its record was created, or if it was there already and read as the host's own, the block of
another host if it was read so and the affinity record is gone, and else the error that the last call
met. -/
theorem claim_keeps_protocol (settings : Settings) (catalog : Catalog) (words : Nat → Words)
    (host : String) (family : Family) (requested : Option Network) (policy : Policy) (b : Responder) :
    let ran := (claimFree settings catalog words host family requested policy).converse b
    let calls := ran.2
    (∀ e, Claim.pools catalog family requested = .error e → ran = (.error e, []) ∧
      (∀ block, e ≠ .claimedByOther block) ∧ ∀ cause, e ≠ .store cause) ∧
    ∀ pools, Claim.pools catalog family requested = .ok pools →
      (∀ pool ∈ requested, ∀ e, Layout.of pool (settings.lengths.of pool.family) = .error e →
        ran = (.error (.blockSize e), [])) ∧
      ((∀ pool ∈ requested, ∃ l, Layout.of pool (settings.lengths.of pool.family) = .ok l) →
        Course host policy family (candidates settings words pools) calls ran.1 ∧
        (calls.map (·.request.kind)).count .createBlock ≤ 1 ∧
        (∀ x ∈ calls, x.request.kind ∉ [.updateBlock, .deleteBlock, .listAffinities]) ∧
        ∀ outcome, ran.1 = outcome ↔ Concludes host policy family calls outcome) := by
  intro ran calls
  refine ⟨fun e he => ⟨?_, pools_error_ne family he⟩, fun pools hpools => ⟨?_, fun hcut => ?_⟩⟩
  · simp only [ran, claimFree, he]
    rfl
  · rintro pool rfl e hl
    obtain rfl := pools_requested family hpools
    have hsearch := searchPools_requested settings host family policy words pool
    rw [hl] at hsearch
    simp only [ran, claimFree, hpools, Option.isSome_some, hsearch]
    rfl
  · have h : Course host policy family (candidates settings words pools) calls ran.1 := by
      apply course_of_probe
      · intro c hc
        obtain ⟨pool, -, hblock⟩ := (mem_candidates_iff settings words pools c).1 hc
        exact hblock.trunc_eq
      · rw [← claimFree_eq_probe settings host family policy words hpools hcut]
        exact Program.transcript_converse _ b
    exact ⟨h, h.count_createBlock_le, fun _ => h.kind_notMem, h.concludes_iff⟩

/-- The store has a record of the first block, then none of the second, and then that of another host. -/
theorem claim_keeps_protocol_of_race :
    let pool : Network := ⟨⟨.v4, 0x0A000000, by decide⟩, 25, by decide⟩
    let first : Network := ⟨⟨.v4, 0x0A000000, by decide⟩, 26, by decide⟩
    let second : Network := ⟨⟨.v4, 0x0A000040, by decide⟩, 26, by decide⟩
    let theirs : Versioned Block := ⟨⟨second, some "b", false, ∅⟩, .initial⟩
    let store : Responder := fun said r =>
      match r with
      | .getBlock _ => if said.length = 1 then .error (.notFound "") else .ok theirs
      | .createBlock _ => .error (.alreadyExists "")
      | .deleteAffinity _ => .error (.notFound "")
      | .updateBlock _ | .deleteBlock _ | .createAffinity _ | .listAffinities _ =>
        .error (.backend "")
    let ran := (claimFree .standard (.ok [⟨pool, false⟩]) (fun _ => .ofSeed 0) "a" .v4 none
      ⟨false⟩).converse store
    Claim.pools (.ok [⟨pool, false⟩]) .v4 none = .ok [pool] ∧
      ran.2 = [⟨.getBlock first, .ok theirs⟩, ⟨.getBlock second, .error (.notFound "")⟩,
        ⟨.createAffinity ⟨"a", second⟩, .error (.backend "")⟩,
        ⟨.createBlock ⟨second, some "a", false, ∅⟩, .error (.alreadyExists "")⟩,
        ⟨.getBlock second, .ok theirs⟩,
        ⟨.deleteAffinity ⟨"a", second⟩, .error (.notFound "")⟩] ∧
      ran.1 = .error (.claimedByOther theirs.value) := by
  intro pool first second theirs store ran
  have hpools : Claim.pools (.ok [⟨pool, false⟩]) .v4 none = .ok [pool] := by decide +kernel
  have hcandidates : candidates .standard (fun _ => .ofSeed 0) [pool] = [first, second] := by
    decide +kernel
  have hclear : second.trunc = second := by decide +kernel
  have hprobe := claimFree_eq_probe .standard "a" .v4 ⟨false⟩ (fun _ => .ofSeed 0) hpools nofun
  have hcalls : ran.2 = [⟨.getBlock first, .ok theirs⟩, ⟨.getBlock second, .error (.notFound "")⟩,
      ⟨.createAffinity ⟨"a", second.trunc⟩, .error (.backend "")⟩,
      ⟨.createBlock ⟨second.trunc, some "a", false, ∅⟩, .error (.alreadyExists "")⟩,
      ⟨.getBlock second, .ok theirs⟩,
      ⟨.deleteAffinity ⟨"a", second.trunc⟩, .error (.notFound "")⟩] := by
    simp only [ran, hprobe, hcandidates]
    rfl
  rw [hclear] at hcalls
  obtain ⟨-, hsearched⟩ := claim_keeps_protocol .standard (.ok [⟨pool, false⟩]) (fun _ => .ofSeed 0)
    "a" .v4 none ⟨false⟩ store
  obtain ⟨-, hran⟩ := hsearched _ hpools
  obtain ⟨-, -, -, hconcludes⟩ := hran nofun
  refine ⟨hpools, hcalls, (hconcludes _).2 ?_⟩
  rw [hcalls]
  exact .lost rfl (by decide) (fun _ he => by cases he; rfl) ⟨[_, _, _], rfl⟩

end HostBlocks.Claim
