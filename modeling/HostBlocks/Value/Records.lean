import HostBlocks.Enumeration.Candidates
import HostBlocks.Pool
import HostBlocks.Record
import HostBlocks.Value

/-!
# Records as values

Every record is written as its fields by name, with nothing left out. Reading fills in the fields that
are missing and have a default, and passes over names it does not know. Networks keep their host bits.
-/
namespace HostBlocks

variable (d : Dialect)

namespace Family

def words : List (String × Family) := [("v4", .v4), ("v6", .v6)]

def toValue : Family → Value
  | .v4 => .text "v4"
  | .v6 => .text "v6"

def ofValue : Value → Option Family := Value.word? d words

end Family

namespace Selection

def words : List (String × Selection) := [("sequential", .sequential), ("random", .random)]

def toValue : Selection → Value
  | .sequential => .text "sequential"
  | .random => .text "random"

def ofValue : Value → Option Selection := Value.word? d words

end Selection

namespace Address

def toValue (a : Address) : Value := .text a.text

def ofValue (v : Value) : Option Address := v.text?.bind ofText?

end Address

namespace Network

def toValue (n : Network) : Value := .text n.text

def ofValue (v : Value) : Option Network := v.text?.bind ofText?

end Network

namespace Pool

def toValue (p : Pool) : Value :=
  .record [("cidr", p.cidr.toValue), ("disabled", .bool p.disabled)]

def ofValue (v : Value) : Option Pool := do
  let fields ← v.fields? d ["cidr", "disabled"]
  return {
    cidr := ← Value.required fields "cidr" Network.ofValue
    disabled := ← Value.optional fields "disabled" false Value.bool? }

end Pool

namespace Block

def toValue (b : Block) : Value :=
  .record [
    ("cidr", b.cidr.toValue),
    ("affinity", b.affinity.elim .null .text),
    ("strict_affinity", .bool b.strictAffinity),
    ("allocated", .list (b.allocated.toList.map Address.toValue))]

def addresses (v : Value) : Option (Std.ExtTreeSet Address) := do
  let items ← v.list?
  return .ofList (← items.mapM Address.ofValue)

def ofValue (v : Value) : Option Block := do
  let fields ← v.fields? d ["cidr", "affinity", "strict_affinity", "allocated"]
  return {
    cidr := ← Value.required fields "cidr" Network.ofValue
    affinity := ← Value.optional fields "affinity" none (Value.nullable Value.text?)
    strictAffinity := ← Value.optional fields "strict_affinity" false Value.bool?
    allocated := ← Value.optional fields "allocated" ∅ addresses }

end Block

namespace Affinity

def toValue (a : Affinity) : Value :=
  .record [("host", .text a.host), ("cidr", a.cidr.toValue)]

def ofValue (v : Value) : Option Affinity := do
  let fields ← v.fields? d ["host", "cidr"]
  return {
    host := ← Value.required fields "host" Value.text?
    cidr := ← Value.required fields "cidr" Network.ofValue }

end Affinity

end HostBlocks
