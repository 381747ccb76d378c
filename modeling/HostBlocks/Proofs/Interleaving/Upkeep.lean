import HostBlocks.Proofs.Interleaving.Index

/-!
# How operations keep the index

A claim writes the entry of its host before it can own the block, and a release removes the entry after
the host has lost the block. In between an operation has yet to set its entry right; all it relies on is
what no other host touches. When it returns, the entry is right, with one exception: a claim that met a
record and finds none when it looks again leaves its entry behind.
-/
namespace HostBlocks

namespace Operation

/-- The path for which an answer comes with the right entry: the host owns the block, or its entry has
been removed. -/
def settled : Operation → Outcome Answer → Option String
  | claim _ _ _, .ok (.claimed cidr) => some (Block.pathOf cidr)
  | claim _ _ _, .error (.claimedByOther block) => some block.path
  | release _ _ cidr, .ok _ => some (Block.pathOf cidr)
  | _, _ => none

/-- The path whose entry a claim has left behind with its answer, without owning the block. -/
def stranded : Operation → Outcome Answer → Option String
  | claim _ _ _, .error (.store (.notFound key)) => some key
  | _, _ => none

end Operation

namespace Task

variable (t : Task)

def settled : Option String := t.program.result.bind t.operation.settled

def stranded : Option String := t.program.result.bind t.operation.stranded

end Task

namespace Claim.Stage

/-- The path whose entry the claim has yet to set right. -/
def pends : Stage → Option String
  | creating cidr => some (Block.pathOf cidr)
  | rereading cidr => some (Block.pathOf cidr)
  | withdrawing cidr _ => some (Block.pathOf cidr)
  | _ => none

def Tracks (host : String) (s : Store) : Stage → Prop
  | creating cidr => s.Listed (Block.pathOf cidr) host
  | rereading cidr => s.Listed (Block.pathOf cidr) host
  | withdrawing cidr block => ¬s.Owned (Block.pathOf cidr) host ∧ block.path = Block.pathOf cidr
  | _ => True

variable {host : String} {policy : Policy} {s s' : Store} {stage stage' : Stage}

theorem tracks_search {family : Family} {candidates : List Network} :
    (search family candidates).Tracks host s := by
  cases candidates <;> trivial

theorem Tracks.move (hfiled : s.Filed) (hclear : stage.IsClear) (h : stage.Tracks host s)
    (hm : Move host policy s stage stage' s') : stage'.Tracks host s' := by
  cases hm with
  | taken => exact tracks_search
  | free | created | own | gone | withdrawn => trivial
  | recorded =>
    refine (Store.listed_createAffinity hfiled).2 (Or.inr ⟨rfl, ?_⟩)
    exact congrArg Block.pathOf hclear
  | present => exact h
  | @lost cidr stored hs ho =>
    refine ⟨?_, hfiled.blocks hs⟩
    rw [Store.owned_iff hs]
    simpa [Block.isOwnedBy] using ho

end Claim.Stage

namespace Release.Stage

def pends (cidr : Network) : Stage → Option String
  | cleaning _ => some (Block.pathOf cidr)
  | _ => none

def Tracks (host : String) (cidr : Network) (s : Store) : Stage → Prop
  | cleaning _ => ¬s.Owned (Block.pathOf cidr) host
  | _ => True

variable {bound : Nat} {host : String} {cidr : Network} {s s' : Store} {stage stage' : Stage}

theorem tracks_round (left : Nat) : (round bound cidr left).Tracks host cidr s := by
  cases left <;> trivial

theorem Knows.tracks (h : stage.Knows host cidr s) (hm : Move bound host cidr s stage stage' s') :
    stage'.Tracks host cidr s' := by
  cases hm with
  | missing | foreign | empty | leased | vanished | cleaned => trivial
  | conflict => exact tracks_round _
  | deleted => exact fun howned => (Store.owned_erase.1 howned).1 rfl
  | absent hs => exact Store.not_owned_of_absent hs
  | cleared =>
    obtain ⟨hpath, -⟩ := h
    intro howned
    rw [Store.owned_insert, if_pos hpath.symm] at howned
    cases howned

end Release.Stage

namespace Place

def pends : Place → Option String
  | claiming _ _ _ stage => stage.pends
  | releasing _ _ cidr stage => stage.pends cidr

def Tracks (s : Store) : Place → Prop
  | claiming _ _ host stage => stage.IsClear ∧ stage.Tracks host s
  | releasing _ host cidr stage =>
    cidr.trunc = cidr ∧ stage.Knows host cidr s ∧ stage.Tracks host cidr s

theorem Starts.tracks {operation : Operation} {place : Place} (h : Starts operation place)
    (hclear : operation.IsClear) (s : Store) : place.Tracks s := by
  cases h with
  | claim h =>
    refine ⟨h.isClear hclear, ?_⟩
    cases h with
    | block | refused => trivial
    | search => exact Claim.Stage.tracks_search
  | release bound host cidr =>
    exact ⟨hclear, Release.Stage.knows_round bound, Release.Stage.tracks_round bound⟩

variable {s s' : Store} {place place' : Place}

theorem Tracks.move (hfiled : s.Filed) (h : place.Tracks s) (hm : Move s place place' s') :
    place'.Tracks s' := by
  cases hm with
  | claim hm =>
    obtain ⟨hclear, htracks⟩ := h
    exact ⟨hclear.move hm, htracks.move hfiled hclear hm⟩
  | release hm =>
    obtain ⟨hclear, hknows, -⟩ := h
    exact ⟨hclear, (hknows.move hfiled hm).1, hknows.tracks hm⟩

/-- What a call of an operation of the host does about the entry for a path. -/
inductive Turn (host path : String) (s s' : Store) (place place' : Place) : Prop
  | settled (h : place'.task.settled = some path)
      (hindex : s'.Listed path host ↔ s'.Owned path host)
  | stranded (h : place'.task.stranded = some path) (hlisted : s'.Listed path host)
      (howned : ¬s'.Owned path host)
  | pending (h : place'.pends = some path) (hlisted : s.Listed path host → s'.Listed path host)
      (howned : s'.Owned path host → s.Owned path host)
  | idle (h : place.pends ≠ some path) (hsettled : place'.task.settled ≠ some path)
      (hstranded : place'.task.stranded ≠ some path)
      (hlisted : s'.Listed path host ↔ s.Listed path host)
      (howned : s'.Owned path host ↔ s.Owned path host)

end Place

section

variable {target : Target} {policy : Policy} {bound : Nat} {host : String} {cidr : Network}
  {s s' : Store}

theorem Store.listed_record (hfiled : s.Filed) (hclear : cidr.trunc = cidr) (host path : String) :
    (s.createAffinity (.of host cidr)).2.Listed path host ↔
      s.Listed path host ∨ Block.pathOf cidr = path := by
  rw [listed_createAffinity hfiled, Affinity.of, hclear, and_iff_right rfl]

theorem Store.listed_withdraw (hfiled : s.Filed) (hclear : cidr.trunc = cidr) (host path : String) :
    (s.deleteAffinity (.of host cidr)).2.Listed path host ↔
      s.Listed path host ∧ Block.pathOf cidr ≠ path := by
  rw [listed_deleteAffinity hfiled, Affinity.of, hclear, and_iff_right rfl]

theorem Claim.Move.turn {stage stage' : Claim.Stage} (hm : Claim.Move host policy s stage stage' s')
    (hfiled : s.Filed) (hclear : stage.IsClear) (htracks : stage.Tracks host s) (path : String) :
    Place.Turn host path s s' (.claiming target policy host stage)
      (.claiming target policy host stage') := by
  cases hm with
  | @taken family cidr rest =>
    cases rest <;> exact .idle nofun nofun nofun Iff.rfl Iff.rfl
  | free => exact .idle nofun nofun nofun Iff.rfl Iff.rfl
  | @recorded cidr =>
    have hlisted := Store.listed_record hfiled hclear host path
    by_cases hp : Block.pathOf cidr = path
    · exact .pending (congrArg some hp) (fun h => hlisted.2 (Or.inl h)) Store.owned_createAffinity.1
    · exact .idle nofun nofun nofun (hlisted.trans (or_iff_left hp)) Store.owned_createAffinity
  | @created cidr hs =>
    have htrunc : Block.pathOf cidr.trunc = Block.pathOf cidr := congrArg Block.pathOf hclear
    by_cases hp : Block.pathOf cidr = path
    · subst hp
      refine .settled rfl (iff_of_true htracks ?_)
      rw [Store.owned_insert, if_pos htrunc.symm]
      rfl
    · refine .idle (mt Option.some.inj hp) (mt Option.some.inj hp) nofun Iff.rfl ?_
      rw [Store.owned_insert, if_neg (htrunc ▸ Ne.symm hp)]
  | @present cidr stored hs =>
    by_cases hp : Block.pathOf cidr = path
    · exact .pending (congrArg some hp) id id
    · exact .idle (mt Option.some.inj hp) nofun nofun Iff.rfl Iff.rfl
  | @own cidr stored hs ho =>
    by_cases hp : Block.pathOf cidr = path
    · subst hp
      refine .settled rfl (iff_of_true htracks ?_)
      rw [Store.owned_iff hs]
      simpa [Block.isOwnedBy] using ho
    · exact .idle (mt Option.some.inj hp) (mt Option.some.inj hp) nofun Iff.rfl Iff.rfl
  | @lost cidr stored hs ho =>
    by_cases hp : Block.pathOf cidr = path
    · exact .pending (congrArg some hp) id id
    · exact .idle (mt Option.some.inj hp) nofun nofun Iff.rfl Iff.rfl
  | @gone cidr hs =>
    by_cases hp : Block.pathOf cidr = path
    · subst hp
      exact .stranded rfl htracks (Store.not_owned_of_absent hs)
    · exact .idle (mt Option.some.inj hp) nofun (mt Option.some.inj hp) Iff.rfl Iff.rfl
  | @withdrawn cidr block =>
    obtain ⟨hnot, hblock⟩ := htracks
    have hlisted := Store.listed_withdraw hfiled hclear host path
    by_cases hp : Block.pathOf cidr = path
    · have hgone := fun h => (hlisted.1 h).2 hp
      subst hp
      exact .settled (congrArg some hblock)
        (iff_of_false hgone (mt Store.owned_deleteAffinity.1 hnot))
    · exact .idle (mt Option.some.inj hp) (mt Option.some.inj (mt hblock.symm.trans hp))
        nofun (hlisted.trans (and_iff_left hp)) Store.owned_deleteAffinity

theorem Release.Move.turn {stage stage' : Release.Stage}
    (hm : Release.Move bound host cidr s stage stage' s') (hfiled : s.Filed)
    (hclear : cidr.trunc = cidr) (hknows : stage.Knows host cidr s)
    (htracks : stage.Tracks host cidr s) (path : String) :
    Place.Turn host path s s' (.releasing bound host cidr stage)
      (.releasing bound host cidr stage') := by
  cases hm with
  | missing | foreign | empty | leased | vanished =>
    exact .idle nofun nofun nofun Iff.rfl Iff.rfl
  | @conflict _ _ left => cases left <;> exact .idle nofun nofun nofun Iff.rfl Iff.rfl
  | deleted =>
    by_cases hp : Block.pathOf cidr = path
    · exact .pending (congrArg some hp) id fun h => (Store.owned_erase.1 h).2
    · exact .idle nofun nofun nofun Iff.rfl
        (Store.owned_erase.trans (and_iff_right (Ne.symm hp)))
  | absent hs =>
    by_cases hp : Block.pathOf cidr = path
    · exact .pending (congrArg some hp) id id
    · exact .idle nofun nofun nofun Iff.rfl Iff.rfl
  | @cleared read stored left hs hr =>
    obtain ⟨hpath, -⟩ := hknows
    by_cases hp : Block.pathOf cidr = path
    · refine .pending (congrArg some hp) id fun h => ?_
      rw [Store.owned_insert, if_pos (hp.symm.trans hpath.symm)] at h
      cases h
    · refine .idle nofun nofun nofun Iff.rfl ?_
      rw [Store.owned_insert, if_neg (hpath ▸ Ne.symm hp)]
  | @cleaned disposition =>
    have hlisted := Store.listed_withdraw hfiled hclear host path
    by_cases hp : Block.pathOf cidr = path
    · have hgone := fun h => (hlisted.1 h).2 hp
      subst hp
      exact .settled rfl
        (iff_of_false hgone (mt Store.owned_deleteAffinity.1 htracks))
    · exact .idle (mt Option.some.inj hp) (mt Option.some.inj hp)
        nofun (hlisted.trans (and_iff_left hp)) Store.owned_deleteAffinity

end

/-- Between the two stores neither the entries of the host change nor does it come to own a block. -/
structure Store.Leaves (host : String) (s s' : Store) : Prop where
  listed : ∀ {path : String}, s'.Listed path host ↔ s.Listed path host
  owned : ∀ {path : String}, s'.Owned path host → s.Owned path host

section

variable {host other : String} {s s' : Store}

theorem Store.leaves_of_affinities_eq (h : s'.affinities = s.affinities)
    (howned : ∀ {path : String}, s'.Owned path host → s.Owned path host) : s.Leaves host s' where
  listed := listed_of_affinities_eq h
  owned := howned

theorem Store.leaves_createAffinity {a : Affinity} (hfiled : s.Filed) (hne : a.host ≠ host) :
    s.Leaves host (s.createAffinity a).2 where
  listed := (listed_createAffinity hfiled).trans (or_iff_left fun h => hne h.1)
  owned := owned_createAffinity.1

theorem Store.leaves_deleteAffinity {a : Affinity} (hfiled : s.Filed) (hne : a.host ≠ host) :
    s.Leaves host (s.deleteAffinity a).2 where
  listed := (listed_deleteAffinity hfiled).trans (and_iff_left fun h => hne h.1)
  owned := owned_deleteAffinity.1

theorem Claim.Move.leaves {policy : Policy} {stage stage' : Claim.Stage}
    (hm : Claim.Move other policy s stage stage' s') (hfiled : s.Filed) (hne : other ≠ host) :
    s.Leaves host s' := by
  cases hm with
  | taken | free | present | own | lost | gone => exact Store.leaves_of_affinities_eq rfl id
  | recorded => exact Store.leaves_createAffinity hfiled hne
  | withdrawn => exact Store.leaves_deleteAffinity hfiled hne
  | created =>
    refine Store.leaves_of_affinities_eq rfl fun howned => ?_
    rw [Store.owned_insert] at howned
    split at howned
    · exact absurd (Option.some.inj howned) hne
    · exact howned

theorem Release.Move.leaves {bound : Nat} {cidr : Network} {stage stage' : Release.Stage}
    (hm : Release.Move bound other cidr s stage stage' s') (hfiled : s.Filed) (hne : other ≠ host) :
    s.Leaves host s' := by
  cases hm with
  | missing | foreign | empty | leased | absent | conflict | vanished =>
    exact Store.leaves_of_affinities_eq rfl id
  | deleted => exact Store.leaves_of_affinities_eq rfl fun howned => (Store.owned_erase.1 howned).2
  | cleaned => exact Store.leaves_deleteAffinity hfiled hne
  | cleared =>
    refine Store.leaves_of_affinities_eq rfl fun howned => ?_
    rw [Store.owned_insert] at howned
    split at howned
    · cases howned
    · exact howned

end

namespace Place

variable {s s' : Store} {place place' : Place}

theorem Move.leaves {host : String} (hm : Move s place place' s') (hfiled : s.Filed)
    (hne : place.host ≠ host) : s.Leaves host s' := by
  cases hm with
  | claim hm => exact hm.leaves hfiled hne
  | release hm => exact hm.leaves hfiled hne

theorem Tracks.spares (hfiled : s.Filed) (h : place.Tracks s) (hm : Move s place place' s') :
    s.Spares s' := by
  cases hm with
  | claim hm => exact hm.spares
  | release hm =>
    obtain ⟨-, hknows, -⟩ := h
    exact (hknows.move hfiled hm).2

/-- What an operation relies on is left alone by the operations of other hosts. -/
theorem Tracks.leaves (h : place.Tracks s) (hleaves : s.Leaves place.host s') (hspares : s.Spares s') :
    place.Tracks s' := by
  cases place with
  | claiming target policy host stage =>
    obtain ⟨hclear, htracks⟩ := h
    refine ⟨hclear, ?_⟩
    cases stage with
    | probing | recording | returned => trivial
    | creating | rereading => exact hleaves.listed.2 htracks
    | withdrawing => exact ⟨mt hleaves.owned htracks.1, htracks.2⟩
  | releasing bound host cidr stage =>
    obtain ⟨hclear, hknows, htracks⟩ := h
    refine ⟨hclear, hknows.spares hspares, ?_⟩
    cases stage with
    | reading | deleting | clearing | returned => trivial
    | cleaning => exact mt hleaves.owned htracks

theorem Move.turn (hm : Move s place place' s') (hfiled : s.Filed) (h : place.Tracks s)
    (path : String) : Turn place.host path s s' place place' := by
  cases hm with
  | claim hm =>
    obtain ⟨hclear, htracks⟩ := h
    exact hm.turn hfiled hclear htracks path
  | release hm =>
    obtain ⟨hclear, hknows, htracks⟩ := h
    exact hm.turn hfiled hclear hknows htracks path

end Place

end HostBlocks
