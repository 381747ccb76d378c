import HostBlocks.Enumeration.Candidates
import HostBlocks.Pool
import HostBlocks.Store

/-!
# Allocation

What an allocator is told once, the policy that comes with each claim, and why a claim, a release or a
listing failed. Callers decide by the kind of a failure: mend the request, try elsewhere, or give up.
-/
namespace HostBlocks

def defaultReleaseRounds : Nat := 100

structure Settings where
  lengths : BlockLengths
  /-- Rounds that a release makes before it gives up on update conflicts. -/
  releaseRounds : Nat
  selection : Selection
deriving DecidableEq

def Settings.standard : Settings := ⟨.standard, defaultReleaseRounds, .sequential⟩

structure Policy where
  strictAffinity : Bool
deriving DecidableEq

inductive AllocationError where
  | poolNotConfigured (pool : Network)
  | poolFamilyMismatch (pool : Network) (family : Family)
  | blockSize (cause : SizeError)
  | noConfiguredPools (family : Family)
  | noFreeBlocks (family : Family)
  /-- Carries the block as the store has it. -/
  | claimedByOther (block : Block)
  | roundsExhausted (cidr : Network) (rounds : Nat)
  | store (cause : StoreError)
  | catalog (cause : CatalogError)
deriving DecidableEq

inductive AllocationError.Kind where
  | invalidPool
  | noConfiguredPools
  | noFreeBlocks
  | claimedByOther
  | roundsExhausted
  | store
deriving DecidableEq

namespace AllocationError

def kind : AllocationError → Kind
  | poolNotConfigured _ => .invalidPool
  | poolFamilyMismatch _ _ => .invalidPool
  | blockSize _ => .invalidPool
  | noConfiguredPools _ => .noConfiguredPools
  | noFreeBlocks _ => .noFreeBlocks
  | claimedByOther _ => .claimedByOther
  | roundsExhausted _ _ => .roundsExhausted
  | store _ => .store
  | catalog _ => .store

def message : AllocationError → String
  | poolNotConfigured pool => "The given pool (" ++ pool.text ++ ") does not exist"
  | poolFamilyMismatch pool family =>
    "The given pool (" ++ pool.text ++ ") does not match IP version " ++ family.label
  | blockSize cause => "Pool cannot be split into blocks: " ++ cause.message
  | noConfiguredPools family => "No configured " ++ family.label ++ " pools"
  | noFreeBlocks family => "No free " ++ family.label ++ " blocks"
  | claimedByOther block =>
    "Block " ++ block.cidr.text ++ " is claimed by host " ++ block.affinity.getD "<none>"
  | roundsExhausted cidr rounds =>
    "Max retries hit releasing block " ++ cidr.text ++ " after " ++ toString rounds ++ " attempts"
  | store cause => cause.message
  | catalog cause => cause.message

end AllocationError

end HostBlocks
