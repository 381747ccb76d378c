import HostBlocks.Proofs.Names.Lookalikes
import HostBlocks.Proofs.Search
import HostBlocks.Record

/-!
# Which records share a path

The path of a block ends with its family and its name, and the path of an affinity record puts the host
before these. A host may have slashes in it, but what follows it has a fixed count of them, so records
of two hosts never meet. Blocks of one family meet where their names do.
-/
namespace HostBlocks

def pathParts (p : String) : List (List Char) := p.toList.splitOn '/'

theorem pathParts_inj {s t : String} : pathParts s = pathParts t ↔ s = t := by
  constructor
  · intro h
    have hjoined := congrArg (['/'].intercalate ·) h
    simp only [pathParts, List.intercalate_splitOn] at hjoined
    exact String.toList_inj.1 hjoined
  · rintro rfl
    rfl

theorem pathParts_slash (s t : String) : pathParts (s ++ "/" ++ t) = pathParts s ++ pathParts t := by
  rw [pathParts, String.toList_append, String.toList_append, List.append_assoc]
  exact List.splitOn_append_cons_self _ _

theorem pathParts_of_not_mem {s : String} (h : '/' ∉ s.toList) : pathParts s = [s.toList] :=
  List.splitOn_eq_singleton h

theorem Family.pathParts_segment (f : Family) : pathParts f.segment = [f.segment.toList] := by
  cases f <;> exact pathParts_of_not_mem (by decide)

theorem Family.segment_inj {f g : Family} : f.segment = g.segment ↔ f = g := by
  cases f <;> cases g <;> decide

theorem StorageName.pathParts_ofNetwork (n : Network) :
    pathParts (ofNetwork n) = [(ofNetwork n).toList] := by
  apply pathParts_of_not_mem
  rw [ofNetwork, String.toList_ofList, dashed, List.mem_map]
  rintro ⟨c, -, hc⟩
  split at hc
  · cases hc
  · next hmark =>
    subst hc
    exact hmark rfl

namespace Block

theorem pathParts_pathOf (cidr : Network) :
    pathParts (pathOf cidr) = pathParts (storageRoot ++ "/assignment") ++
      [cidr.family.segment.toList, "block".toList, (StorageName.ofNetwork cidr).toList] := by
  have hpath : pathOf cidr = storageRoot ++ "/assignment" ++ "/" ++ cidr.family.segment ++ "/" ++
      "block" ++ "/" ++ StorageName.ofNetwork cidr := by
    simp [pathOf, ← String.toList_inj]
  rw [hpath, pathParts_slash, pathParts_slash, pathParts_slash, Family.pathParts_segment,
    StorageName.pathParts_ofNetwork, pathParts_of_not_mem (s := "block") (by decide)]
  simp

theorem pathOf_eq_iff {a b : Network} :
    pathOf a = pathOf b ↔
      a.family = b.family ∧ StorageName.ofNetwork a = StorageName.ofNetwork b := by
  rw [← pathParts_inj, pathParts_pathOf, pathParts_pathOf, List.append_cancel_left_eq]
  simp [String.toList_inj, Family.segment_inj]

/-- A network with host bits has another path than the block it lies in. -/
theorem pathOf_trunc_eq_iff {cidr : Network} : pathOf cidr.trunc = pathOf cidr ↔ cidr.trunc = cidr := by
  rw [pathOf_eq_iff, Network.ofNetwork_trunc_eq_iff, and_iff_right cidr.family_trunc]

end Block

namespace Affinity

theorem pathParts_path (a : Affinity) :
    pathParts a.path = pathParts (storageRoot ++ "/host") ++ pathParts a.host ++
      [a.cidr.family.segment.toList, "block".toList, (StorageName.ofNetwork a.cidr).toList] := by
  have hpath : a.path = storageRoot ++ "/host" ++ "/" ++ a.host ++ "/" ++ a.cidr.family.segment ++
      "/" ++ "block" ++ "/" ++ StorageName.ofNetwork a.cidr := by
    simp [path, hostPath, family, ← String.toList_inj]
  rw [hpath, pathParts_slash, pathParts_slash, pathParts_slash, pathParts_slash,
    Family.pathParts_segment, StorageName.pathParts_ofNetwork,
    pathParts_of_not_mem (s := "block") (by decide)]
  simp

/-- Affinity records share a path exactly if they are of one host and their blocks share a path. -/
theorem path_eq_iff {a b : Affinity} :
    a.path = b.path ↔ a.host = b.host ∧ Block.pathOf a.cidr = Block.pathOf b.cidr := by
  rw [← pathParts_inj, pathParts_path, pathParts_path, Block.pathOf_eq_iff]
  constructor
  · intro h
    obtain ⟨hfront, hend⟩ := List.append_inj' h rfl
    have hhost := pathParts_inj.1 (List.append_cancel_left hfront)
    simpa [String.toList_inj, Family.segment_inj, hhost] using hend
  · rintro ⟨hhost, hfamily, hname⟩
    rw [hhost, hfamily, hname]

/-- A path of an affinity record tells its host, the family and the name of its network. This holds for any
hosts, also for one that is empty, has slashes in it or reads like the end of a path. -/
theorem path_tells_host (a b : Affinity) :
    a.path = b.path ↔ a.host = b.host ∧ a.family = b.family ∧
      StorageName.ofNetwork a.cidr = StorageName.ofNetwork b.cidr :=
  path_eq_iff.trans (and_congr_right fun _ => Block.pathOf_eq_iff)

end Affinity

namespace Block

/-- Two networks have one path exactly if they are equal, or of one length and one of them has a mapped
address, not all of its octets zero, and the other the address that it looks like. -/
theorem same_path_iff_lookalike (a b : Network) :
    pathOf a = pathOf b ↔ a = b ∨ a.length = b.length ∧
      (b.address.IsLookalikeOf a.address ∨ a.address.IsLookalikeOf b.address) := by
  rw [pathOf_eq_iff]
  constructor
  · rintro ⟨hfamily, hname⟩
    exact (Network.ofNetwork_eq_iff hfamily).1 hname
  · intro h
    have hfamily : a.family = b.family := by
      rcases h with rfl | ⟨-, h | h⟩
      · rfl
      · exact h.family_eq
      · exact h.family_eq.symm
    exact ⟨hfamily, (Network.ofNetwork_eq_iff hfamily).2 h⟩

/-- Two blocks of one pool, without host bits and different, that have one path. -/
theorem same_path_of_two_blocks :
    let pool : Network := ⟨⟨.v6, 0, by decide⟩, 48, by decide⟩
    let mapped : Network := ⟨⟨.v6, 0xffff01020300, by decide⟩, 122, by decide⟩
    let plain : Network := ⟨⟨.v6, 0xffff0001000200030000, by decide⟩, 122, by decide⟩
    (Claim.IsBlockOf .standard pool mapped ∧ Claim.IsBlockOf .standard pool plain) ∧
      (mapped.trunc = mapped ∧ plain.trunc = plain) ∧ mapped ≠ plain ∧
      pathOf mapped = pathOf plain := by
  intro pool mapped plain
  let l : Layout := ⟨pool, 122, by decide, by decide, by decide, by decide⟩
  have hblock : ∀ i < l.count, Claim.IsBlockOf .standard pool (l.block i) := fun i hi =>
    ⟨l, l.of_eq_ok_iff.2 ⟨rfl, rfl⟩, (l.mem_blocks _).2 ⟨i, hi, rfl⟩⟩
  have hmapped : l.block (0xffff01020300 / 64) = mapped := by decide +kernel
  have hplain : l.block (0xffff0001000200030000 / 64) = plain := by decide +kernel
  refine ⟨⟨?_, ?_⟩, ⟨?_, ?_⟩, ?_, ?_⟩
  · rw [← hmapped]
    exact hblock _ (by decide +kernel)
  · rw [← hplain]
    exact hblock _ (by decide +kernel)
  all_goals decide +kernel

end Block

end HostBlocks
