import HostBlocks.Config
import HostBlocks.Toml.Document

/-!
# Loading

A configuration is loaded from the bytes of a file, if there is one. They have to be UTF-8, then TOML
with values that the fields take, and then a valid configuration.

A valid configuration has block lengths in the supported ranges, at least one release round, and no
pool that cannot be cut into blocks, enabled or not. The first fault in this order is reported.
-/
namespace HostBlocks

inductive ConfigError where
  | unreadable
  | invalidToml
  | blockLength (family : Family) (length : Nat)
  | retryBound
  | pool (pool : Network) (cause : SizeError)
deriving DecidableEq

namespace ConfigError

def message? : ConfigError → Option String
  | unreadable => none
  | invalidToml => none
  | blockLength family length =>
    some ("Block prefix length /" ++ toString length ++ " is out of range for " ++ family.label)
  | retryBound => some "max_release_retries must be at least 1"
  | pool cidr cause => some ("Invalid pool " ++ cidr.text ++ ": " ++ cause.message)

end ConfigError

/-- Configured blocks have at least one address and at most 4096. -/
def Family.allowsBlockLength (f : Family) (length : Nat) : Bool :=
  f.width - 12 ≤ length && length ≤ f.width

namespace Config

variable (c : Config)

def checkLength (f : Family) : Except ConfigError Unit :=
  let length := c.blockLengths.of f
  if f.allowsBlockLength length then .ok () else .error (.blockLength f length)

def checkRounds : Except ConfigError Unit :=
  if c.maxReleaseRetries = 0 then .error .retryBound else .ok ()

def checkPools (lengths : BlockLengths) : List Pool → Except ConfigError Unit
  | [] => .ok ()
  | p :: rest =>
    match Layout.of p.cidr (lengths.of p.family) with
    | .ok _ => checkPools lengths rest
    | .error cause => .error (.pool p.cidr cause)

def validate : Except ConfigError Unit := do
  c.checkLength .v4
  c.checkLength .v6
  c.checkRounds
  checkPools c.blockLengths c.pools

def ofToml? (text : String) : Option Config := (Toml.parse? text).bind (ofValue .toml)

def ofText (text : String) : Except ConfigError Config :=
  match ofToml? text with
  | some c => c.validate.map fun _ => c
  | none => .error .invalidToml

def load (file : Option ByteArray) : Except ConfigError Config :=
  match file.bind String.fromUTF8? with
  | some text => ofText text
  | none => .error .unreadable

end Config

end HostBlocks
