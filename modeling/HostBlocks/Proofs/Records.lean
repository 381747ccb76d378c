import HostBlocks.Config
import HostBlocks.Proofs.Address.Texts

/-!
# Records outlast writing and reading

Writing leaves nothing out, so reading never falls back on a default, and every part of a record is read
as what it was written of. A value that is read as some record may therefore be replaced by what that
record is written as: from then on nothing changes any more.
-/
namespace HostBlocks

namespace Value

variable {α : Type}

/-- What is written is read as it was, and so is what any value was read as. -/
structure Lasting (write : α → Value) (read : Value → Option α) : Prop where
  read_write : ∀ a, read (write a) = some a
  read_again : ∀ v a, read v = some a → read (write a) = some a

theorem lasting_of {write : α → Value} {read : Value → Option α} (h : ∀ a, read (write a) = some a) :
    Lasting write read where
  read_write := h
  read_again _ a _ := h a

theorem mapM_map {write : α → Value} {read : Value → Option α} (h : ∀ a, read (write a) = some a)
    (as : List α) : (as.map write).mapM read = some as := by
  induction as with
  | nil => rfl
  | cons a as ih => simp [List.mapM_cons, h, ih]

theorem nat?_int {n limit : Nat} (h : n < limit) : nat? limit (.int n) = some n := if_pos h

theorem nullable_elim (o : Option String) : nullable text? (o.elim .null .text) = some o := by
  cases o <;> rfl

end Value

namespace Selection

theorem ofValue_toValue (d : Dialect) (s : Selection) : ofValue d s.toValue = some s := by
  cases s <;> rfl

end Selection

namespace Address

theorem ofValue_toValue (a : Address) : ofValue a.toValue = some a := a.ofText?_text

end Address

namespace Network

theorem ofValue_toValue (n : Network) : ofValue n.toValue = some n := n.ofText?_text

end Network

namespace Pool

theorem ofValue_toValue (d : Dialect) (p : Pool) : ofValue d p.toValue = some p := by
  simp only [ofValue, toValue, Value.fields?, Value.required, Value.optional, Option.bind_eq_bind,
    Option.bind_some, List.lookup_cons, String.reduceBEq, Network.ofValue_toValue, Value.bool?]
  rfl

end Pool

namespace Block

/-- Addresses come back as the same set, in whatever order they were written. -/
theorem addresses_toList (s : Std.ExtTreeSet Address) :
    addresses (.list (s.toList.map Address.toValue)) = some s := by
  have hset : Std.ExtTreeSet.ofList s.toList = s := by
    apply Std.ExtTreeSet.ext_mem
    intro a
    simp [Std.ExtTreeSet.mem_ofList]
  simp [addresses, Value.list?, Value.mapM_map Address.ofValue_toValue, hset]

theorem ofValue_toValue (d : Dialect) (b : Block) : ofValue d b.toValue = some b := by
  simp only [ofValue, toValue, Value.fields?, Value.required, Value.optional, Option.bind_eq_bind,
    Option.bind_some, List.lookup_cons, String.reduceBEq, Network.ofValue_toValue, Value.nullable_elim,
    Value.bool?, addresses_toList]
  rfl

end Block

namespace Affinity

theorem ofValue_toValue (d : Dialect) (a : Affinity) : ofValue d a.toValue = some a := by
  simp only [ofValue, toValue, Value.fields?, Value.required, Option.bind_eq_bind, Option.bind_some,
    List.lookup_cons, String.reduceBEq, Network.ofValue_toValue, Value.text?]
  rfl

end Affinity

namespace Policy

theorem ofValue_toValue (d : Dialect) (p : Policy) : ofValue d p.toValue = some p := by
  simp only [ofValue, toValue, Value.fields?, Value.optional, Option.bind_eq_bind, Option.bind_some,
    List.lookup_cons, String.reduceBEq, Value.bool?]
  rfl

end Policy

namespace Config

theorem byte?_toNat (b : UInt8) : byte? (.int b.toNat) = some b := by
  rw [byte?, Value.nat?_int b.toNat_lt_size, Option.map_some, UInt8.ofNat_toNat]

theorem word32?_toNat (w : UInt32) : word32? (.int w.toNat) = some w := by
  rw [word32?, Value.nat?_int w.toNat_lt_size, Option.map_some, UInt32.ofNat_toNat]

theorem pools?_map (d : Dialect) (pools : List Pool) :
    pools? d (.list (pools.map Pool.toValue)) = some pools := by
  simp [pools?, Value.list?, Value.mapM_map (Pool.ofValue_toValue d)]

theorem ofValue_toValue (d : Dialect) (c : Config) : ofValue d c.toValue = some c := by
  simp only [ofValue, toValue, Value.fields?, Value.optional, Option.bind_eq_bind, Option.bind_some,
    List.lookup_cons, String.reduceBEq, Value.bool?, byte?_toNat, word32?_toNat, Selection.ofValue_toValue,
    pools?_map]
  rfl

end Config

namespace Value

/-- Blocks, affinity records, pools, policies and configurations, valid or not, are read as they were
written, in whichever dialect. -/
theorem records_last (d : Dialect) :
    Lasting Block.toValue (Block.ofValue d) ∧ Lasting Affinity.toValue (Affinity.ofValue d) ∧
      Lasting Pool.toValue (Pool.ofValue d) ∧ Lasting Policy.toValue (Policy.ofValue d) ∧
      Lasting Config.toValue (Config.ofValue d) :=
  ⟨lasting_of (Block.ofValue_toValue d), lasting_of (Affinity.ofValue_toValue d),
    lasting_of (Pool.ofValue_toValue d), lasting_of (Policy.ofValue_toValue d),
    lasting_of (Config.ofValue_toValue d)⟩

end Value

end HostBlocks
