import HostBlocks.Allocation
import HostBlocks.Value.Records

/-!
# Configuration

Block lengths, the bound on release rounds, the order in which candidates are tried and the pools.
Every field has a default, so that nothing configured is a configuration too.
-/
namespace HostBlocks

structure Config where
  strictAffinity : Bool
  maxReleaseRetries : UInt32
  blockSelection : Selection
  v4BlockLength : UInt8
  v6BlockLength : UInt8
  pools : List Pool
deriving DecidableEq

namespace Policy

def toValue (p : Policy) : Value := .record [("strict_affinity", .bool p.strictAffinity)]

def ofValue (d : Dialect) (v : Value) : Option Policy := do
  let fields ← v.fields? d ["strict_affinity"]
  return { strictAffinity := ← Value.optional fields "strict_affinity" false Value.bool? }

end Policy

namespace Config

def standard : Config where
  strictAffinity := false
  maxReleaseRetries := UInt32.ofNat defaultReleaseRounds
  blockSelection := .sequential
  v4BlockLength := UInt8.ofNat Family.v4.defaultBlockLength
  v6BlockLength := UInt8.ofNat Family.v6.defaultBlockLength
  pools := []

variable (c : Config)

def blockLengths : BlockLengths := ⟨c.v4BlockLength.toNat, c.v6BlockLength.toNat⟩

def settings : Settings := ⟨c.blockLengths, c.maxReleaseRetries.toNat, c.blockSelection⟩

def policy : Policy := ⟨c.strictAffinity⟩

def catalogPools : List Pool := c.pools.map fun p => ⟨p.cidr.trunc, p.disabled⟩

def toValue : Value :=
  .record [
    ("strict_affinity", .bool c.strictAffinity),
    ("max_release_retries", .int c.maxReleaseRetries.toNat),
    ("block_selection", c.blockSelection.toValue),
    ("ipv4_block_prefix_len", .int c.v4BlockLength.toNat),
    ("ipv6_block_prefix_len", .int c.v6BlockLength.toNat),
    ("pools", .list (c.pools.map Pool.toValue))]

def byte? (v : Value) : Option UInt8 := (v.nat? UInt8.size).map UInt8.ofNat

def word32? (v : Value) : Option UInt32 := (v.nat? UInt32.size).map UInt32.ofNat

def pools? (d : Dialect) (v : Value) : Option (List Pool) := do
  let items ← v.list?
  items.mapM (Pool.ofValue d)

def fieldNames : List String :=
  ["strict_affinity", "max_release_retries", "block_selection", "ipv4_block_prefix_len",
    "ipv6_block_prefix_len", "pools"]

def ofValue (d : Dialect) (v : Value) : Option Config := do
  let fields ← v.fields? d fieldNames
  return {
    strictAffinity := ← Value.optional fields "strict_affinity" standard.strictAffinity Value.bool?
    maxReleaseRetries :=
      ← Value.optional fields "max_release_retries" standard.maxReleaseRetries word32?
    blockSelection :=
      ← Value.optional fields "block_selection" standard.blockSelection (Selection.ofValue d)
    v4BlockLength := ← Value.optional fields "ipv4_block_prefix_len" standard.v4BlockLength byte?
    v6BlockLength := ← Value.optional fields "ipv6_block_prefix_len" standard.v6BlockLength byte?
    pools := ← Value.optional fields "pools" standard.pools (pools? d) }

end Config

end HostBlocks
