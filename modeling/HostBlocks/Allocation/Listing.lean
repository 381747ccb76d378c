import HostBlocks.Allocation.Claim

/-!
# Listings

The blocks of a host by its affinity records, of one family and, if a pool is given, inside it. A listing
looks at no block record. Whether it is right is a question about two things that a store says of a host
and a block, by either kind of record.
-/
namespace HostBlocks

def ownedBlocks (host : String) (family : Family) (pool : Option Network) :
    Program (Outcome (List Network)) :=
  .call (.listAffinities ⟨some host, some family⟩) fun
    | .ok listed =>
      .done (.ok ((listed.map (·.value.cidr)).filter fun cidr => pool.all (·.includes cidr)))
    | .error e => if e.isNotFound then .done (.ok []) else .done (.error (.store e))

namespace Store

def Records (s : Store) (a : Affinity) : Prop :=
  ∃ record, s.affinities[a.path]? = some record ∧ record.value = a

def Confirms (s : Store) (a : Affinity) : Prop :=
  ∃ stored, s.blocks[Block.pathOf a.cidr]? = some stored ∧ stored.value.cidr = a.cidr ∧
    stored.value.affinity = some a.host

variable {s s' : Store} {a b : Affinity} {path : String} {new : Versioned Block}

theorem records_createAffinity (h : s.affinities[a.path]? = none) :
    (s.createAffinity a).2.Records b ↔ if b.path = a.path then b = a else s.Records b := by
  simp only [Records, createAffinity, h, Std.ExtTreeMap.getElem?_insert]
  by_cases hp : b.path = a.path
  · simp [hp, eq_comm]
  · simp [hp, Ne.symm hp]

theorem records_deleteAffinity :
    (s.deleteAffinity a).2.Records b ↔ b.path ≠ a.path ∧ s.Records b := by
  by_cases hp : b.path = a.path
  · simp [Records, hp, getElem?_deleteAffinity]
  · simp only [Records, deleteAffinity]
    split
    · simp [Std.ExtTreeMap.getElem?_erase, hp, Ne.symm hp]
    · simp [hp]

theorem confirms_insert {affinities : Std.ExtTreeMap String (Versioned Affinity)} :
    (⟨s.blocks.insert path new, affinities⟩ : Store).Confirms a ↔
      if Block.pathOf a.cidr = path then new.value.cidr = a.cidr ∧ new.value.affinity = some a.host
      else s.Confirms a := by
  by_cases hp : Block.pathOf a.cidr = path
  · simp [Confirms, hp]
  · simp only [Confirms, getElem?_insert_of_ne hp, if_neg hp]

theorem confirms_erase {affinities : Std.ExtTreeMap String (Versioned Affinity)} :
    (⟨s.blocks.erase path, affinities⟩ : Store).Confirms a ↔
      Block.pathOf a.cidr ≠ path ∧ s.Confirms a := by
  by_cases hp : Block.pathOf a.cidr = path
  · simp [Confirms, hp]
  · simp [Confirms, getElem?_erase_of_ne hp, hp]

theorem confirms_of_blocks_eq (h : s'.blocks = s.blocks) : s'.Confirms a ↔ s.Confirms a := by
  rw [Confirms, Confirms, h]

end Store

end HostBlocks
