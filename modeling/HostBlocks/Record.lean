import HostBlocks.StorageName
import Std.Data.ExtTreeSet

/-!
# Records

A block record is what the store keeps about a block: the host it belongs to, if any, and the
addresses leased out of it. The path of a record depends on its network alone.

An affinity record says that a host owns a block or is about to. It is an index: the block record
decides. Records of one host stand under one path, so that listing them is a scan from there.
-/
namespace HostBlocks

def storageRoot : String := "/ipam/v2"

structure Block where
  cidr : Network
  affinity : Option String
  /-- Whether only the owner may lease addresses. Copied from the policy of the claim. -/
  strictAffinity : Bool
  allocated : Std.ExtTreeSet Address
deriving DecidableEq

namespace Block

def of (cidr : Network) : Block := ⟨cidr.trunc, none, false, ∅⟩

/-- Host bits count: a network and the same network cleared of them have different paths. -/
def pathOf (cidr : Network) : String :=
  storageRoot ++ "/assignment/" ++ cidr.family.segment ++ "/block/" ++ StorageName.ofNetwork cidr

variable (b : Block)

def path : String := pathOf b.cidr

def isEmpty : Bool := b.allocated.isEmpty

def isOwnedBy (host : String) : Bool := b.affinity = some host

def isOwnedByOther (host : String) : Bool :=
  match b.affinity with
  | some owner => owner ≠ host
  | none => false

/-- Leases an address. The answer is whether it lies in the block and was free. -/
def mark (a : Address) : Bool × Block :=
  if b.cidr.contains a && !b.allocated.contains a then
    (true, { b with allocated := b.allocated.insert a })
  else (false, b)

def free (a : Address) : Block := { b with allocated := b.allocated.erase a }

def claimed (cidr : Network) (host : String) (strictAffinity : Bool) : Block :=
  { of cidr with affinity := some host, strictAffinity }

def released : Block := { b with affinity := none }

theorem isOwnedByOther_iff (host : String) :
    b.isOwnedByOther host ↔ ∃ owner, b.affinity = some owner ∧ owner ≠ host := by
  cases h : b.affinity <;> simp [isOwnedByOther, h]

theorem mem_mark (a x : Address) :
    x ∈ (b.mark a).2.allocated ↔ x ∈ b.allocated ∨ x = a ∧ b.cidr.contains a := by
  simp only [mark]
  split
  · next h =>
    simp only [Bool.and_eq_true] at h
    rw [Std.ExtTreeSet.mem_insert, Std.LawfulEqCmp.compare_eq_iff_eq, and_iff_left h.1, or_comm, eq_comm]
  · next h =>
    simp only [Bool.and_eq_true, Bool.not_eq_true', not_and, Bool.not_eq_false] at h
    constructor
    · exact Or.inl
    · rintro (hx | ⟨rfl, hx⟩)
      · exact hx
      · exact Std.ExtTreeSet.mem_iff_contains.2 (h hx)

theorem cidr_mark (a : Address) : (b.mark a).2.cidr = b.cidr := by
  simp only [mark]
  split <;> rfl

end Block

structure Affinity where
  host : String
  cidr : Network
deriving DecidableEq

namespace Affinity

def of (host : String) (cidr : Network) : Affinity := ⟨host, cidr.trunc⟩

def hostPath (host : String) : String := storageRoot ++ "/host/" ++ host ++ "/"

variable (a : Affinity)

def family : Family := a.cidr.family

def path : String :=
  hostPath a.host ++ a.family.segment ++ "/block/" ++ StorageName.ofNetwork a.cidr

end Affinity

/-- What is not given matches every record. -/
structure AffinityFilter where
  host : Option String
  family : Option Family
deriving DecidableEq

namespace AffinityFilter

def accepts (f : AffinityFilter) (a : Affinity) : Bool :=
  f.host.all (· = a.host) && f.family.all (· = a.family)

theorem accepts_iff (f : AffinityFilter) (a : Affinity) :
    f.accepts a ↔ (∀ host ∈ f.host, host = a.host) ∧ ∀ family ∈ f.family, family = a.family := by
  simp [accepts, Option.all_eq_true]

end AffinityFilter

end HostBlocks
