import HostBlocks.Network

/-!
# Pools

The address pools that blocks are cut from, as the configuration lists them. A catalog is the outcome
of reading that list, which may fail. Questions about pools see only enabled ones, and a catalog that
cannot be read matches nothing.
-/
namespace HostBlocks

structure Pool where
  cidr : Network
  disabled : Bool
deriving DecidableEq

namespace Pool

def enabledOf (cidr : Network) : Pool := ⟨cidr.trunc, false⟩

def disabledOf (cidr : Network) : Pool := ⟨cidr.trunc, true⟩

variable (p : Pool)

def family : Family := p.cidr.family

def isEnabled : Bool := !p.disabled

def isEligible (f : Family) : Bool := p.isEnabled && p.family = f

/-- Whether the pool is enabled and written exactly as `cidr`, host bits included. -/
def isNamed (cidr : Network) : Bool := p.isEnabled && p.cidr = cidr

theorem isEligible_iff (f : Family) : p.isEligible f ↔ p.isEnabled ∧ p.family = f := by
  simp [isEligible]

end Pool

inductive CatalogError where
  | unavailable (text : String)
deriving DecidableEq

def CatalogError.message : CatalogError → String
  | .unavailable text => "pool catalog unavailable: " ++ text

abbrev Catalog := Except CatalogError (List Pool)

namespace Catalog

def covers (catalog : Catalog) (a : Address) : Bool :=
  match catalog with
  | .ok pools => pools.any fun p => p.isEligible a.family && p.cidr.contains a
  | .error _ => false

def hasPool (catalog : Catalog) (cidr : Network) : Bool :=
  match catalog with
  | .ok pools => pools.any (·.isNamed cidr)
  | .error _ => false

theorem covers_ok (pools : List Pool) (a : Address) :
    covers (.ok pools) a ↔ ∃ p ∈ pools, p.isEligible a.family ∧ p.cidr.contains a := by
  simp [covers]

end Catalog

end HostBlocks
