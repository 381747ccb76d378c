import HostBlocks.Allocation.Claim

/-!
# Releases

A host gives a block back. An empty block loses its record; a block with leases keeps it without an
owner. The record may change between being read and being written: a conflict starts another round, up
to a bound. The affinity record goes last, and failing to remove it does not undo the release.
-/
namespace HostBlocks

inductive Disposition where
  | deleted
  | affinityCleared
deriving DecidableEq

structure Released where
  cidr : Network
  disposition : Disposition
  /-- Set if the affinity record could not be removed. It then stays in listings. -/
  cleanupError : Option StoreError
deriving DecidableEq

namespace Release

def cleanUp (host : String) (cidr : Network) (disposition : Disposition) :
    Program (Outcome Released) :=
  .call (.deleteAffinity (.of host cidr)) fun
    | .ok _ => .done (.ok ⟨cidr, disposition, none⟩)
    | .error e => .done (.ok ⟨cidr, disposition, if e.isNotFound then none else some e⟩)

def delete (host : String) (cidr : Network) : Program (Outcome Released) :=
  .call (.deleteBlock cidr) fun
    | .ok _ => cleanUp host cidr .deleted
    | .error e => if e.isNotFound then cleanUp host cidr .deleted else .done (.error (.store e))

def clear (host : String) (cidr : Network) (read : Versioned Block)
    (again : Unit → Program (Outcome Released)) : Program (Outcome Released) :=
  .call (.updateBlock ⟨read.value.released, read.revision⟩) fun
    | .ok _ => cleanUp host cidr .affinityCleared
    | .error e => if e.kind = .updateConflict then again () else .done (.error (.store e))

def round (host : String) (cidr : Network) (again : Unit → Program (Outcome Released)) :
    Program (Outcome Released) :=
  .call (.getBlock cidr) fun
    | .error e => .done (.error (.store e))
    | .ok read =>
      if read.value.isOwnedByOther host then .done (.error (.claimedByOther read.value))
      else if read.value.isEmpty then delete host cidr
      else clear host cidr read again

def rounds (bound : Nat) (host : String) (cidr : Network) : Nat → Program (Outcome Released)
  | 0 => .done (.error (.roundsExhausted cidr bound))
  | n + 1 => round host cidr fun _ => rounds bound host cidr n

end Release

def releaseBlock (bound : Nat) (host : String) (cidr : Network) : Program (Outcome Released) :=
  Release.rounds bound host cidr bound

end HostBlocks
