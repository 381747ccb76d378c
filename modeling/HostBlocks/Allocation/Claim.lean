import HostBlocks.Allocation
import HostBlocks.Program

/-!
# Claims

A host claims a block by creating its record, which the store allows once. The affinity record goes in
first, so as to be there by the time the block is owned, but whether that call succeeds decides nothing.
A claim that loses takes its affinity record back.

A claim of any free block looks through the pools in catalog order and claims the first candidate that
has no record. What that claim comes to is the answer: a lost race is not tried again, for that would
change which block the caller gets.
-/
namespace HostBlocks

abbrev Outcome (α : Type) : Type := Except AllocationError α

namespace Claim

def withdraw (cidr : Network) (host : String) (block : Block) : Program (Outcome Unit) :=
  .call (.deleteAffinity (.of host cidr)) fun
    | .ok _ => .done (.error (.claimedByOther block))
    | .error e =>
      if e.isNotFound then .done (.error (.claimedByOther block)) else .done (.error (.store e))

def reread (cidr : Network) (host : String) : Program (Outcome Unit) :=
  .call (.getBlock cidr) fun
    | .ok found =>
      if found.value.isOwnedBy host then .done (.ok ()) else withdraw cidr host found.value
    | .error e => .done (.error (.store e))

def create (cidr : Network) (host : String) (policy : Policy) : Program (Outcome Unit) :=
  .call (.createBlock (.claimed cidr host policy.strictAffinity)) fun
    | .ok _ => .done (.ok ())
    | .error e =>
      if e.kind = .alreadyExists then reread cidr host else .done (.error (.store e))

end Claim

/-- Claims a given block. Its record is created without host bits, but if someone was first, it is read at
the network as given. -/
def claimBlock (cidr : Network) (host : String) (policy : Policy) : Program (Outcome Unit) :=
  .call (.createAffinity (.of host cidr)) fun _ => Claim.create cidr host policy

namespace Claim

/-- The pools that a claim may search: the requested one if it is enabled and of the right family, or
else every enabled pool of the family. -/
def pools (catalog : Catalog) (family : Family) (requested : Option Network) :
    Outcome (List Network) :=
  match catalog with
  | .error e => .error (.catalog e)
  | .ok configured =>
    match requested with
    | some pool =>
      if configured.any (·.isNamed pool) then
        (family.require Network.family (.poolFamilyMismatch · family) pool).map ([·])
      else .error (.poolNotConfigured pool)
    | none =>
      match (configured.filter (·.isEligible family)).map (·.cidr) with
      | [] => .error (.noConfiguredPools family)
      | pool :: rest => .ok (pool :: rest)

def found (cidr : Network) (host : String) (policy : Policy) : Program (Outcome Network) :=
  (claimBlock cidr host policy).map fun outcome => outcome.map fun _ => cidr

/-- Looks at up to `n` candidates and claims the first that has no record, or goes on to `otherwise`. -/
def search (host : String) (policy : Policy) (otherwise : Program (Outcome Network)) :
    Nat → Candidates → Program (Outcome Network)
  | 0, _ => otherwise
  | n + 1, candidates =>
    match candidates.next with
    | none => otherwise
    | some (cidr, rest) =>
      .call (.getBlock cidr) fun
        | .ok _ => search host policy otherwise n rest
        | .error e =>
          if e.isNotFound then found cidr host policy else .done (.error (.store e))

/-- Searches pools in order, each with its own source of randomness. A pool that cannot be cut into
blocks has no candidates, but is an error if it was `requested`. -/
def searchPools (settings : Settings) (host : String) (family : Family) (policy : Policy)
    (requested : Bool) : (Nat → Words) → List Network → Program (Outcome Network)
  | _, [] => .done (.error (.noFreeBlocks family))
  | words, pool :: rest =>
    let later := searchPools settings host family policy requested (fun i => words (i + 1)) rest
    match Candidates.of pool settings.lengths settings.selection (words 0) with
    | .ok candidates => search host policy later candidates.remaining candidates
    | .error e => if requested then .done (.error (.blockSize e)) else later

end Claim

def claimFree (settings : Settings) (catalog : Catalog) (words : Nat → Words) (host : String)
    (family : Family) (requested : Option Network) (policy : Policy) : Program (Outcome Network) :=
  match Claim.pools catalog family requested with
  | .error e => .done (.error e)
  | .ok pools =>
    Claim.searchPools settings host family policy requested.isSome words pools

end HostBlocks
