import HostBlocks.Record
import HostBlocks.Revision
import Std.Data.ExtTreeMap

/-!
# The store

Block and affinity records by their paths. Creating is refused where a record stands, and an update is
refused unless the record is still at the revision that the new value carries. Nothing else excludes
two hosts from one block.

Operations decide by the kind of a store error: the first three kinds are the expected outcomes of a
race, and whatever else goes wrong is the fourth.
-/
namespace HostBlocks

inductive StoreError where
  | notFound (key : String)
  | alreadyExists (key : String)
  | updateConflict (key : String) (expected current : Nat)
  | backend (text : String)
deriving DecidableEq

inductive StoreError.Kind where
  | notFound
  | alreadyExists
  | updateConflict
  | backend
deriving DecidableEq

namespace StoreError

def kind : StoreError → Kind
  | notFound _ => .notFound
  | alreadyExists _ => .alreadyExists
  | updateConflict _ _ _ => .updateConflict
  | backend _ => .backend

def isNotFound (e : StoreError) : Bool := e.kind = .notFound

def message : StoreError → String
  | notFound key => "resource does not exist: " ++ key
  | alreadyExists key => "resource already exists: " ++ key
  | updateConflict key expected current =>
    "update conflict on " ++ key ++ ": revision " ++ toString expected ++
      " is stale, current is " ++ toString current
  | backend text => "backend error: " ++ text

end StoreError

@[ext]
structure Store where
  blocks : Std.ExtTreeMap String (Versioned Block)
  affinities : Std.ExtTreeMap String (Versioned Affinity)
deriving DecidableEq

namespace Store

def empty : Store := ⟨∅, ∅⟩

variable (s : Store)

def getBlock (cidr : Network) : Except StoreError (Versioned Block) :=
  match s.blocks[Block.pathOf cidr]? with
  | some found => .ok found
  | none => .error (.notFound (Block.pathOf cidr))

def createBlock (b : Block) : Except StoreError (Versioned Block) × Store :=
  match s.blocks[b.path]? with
  | some _ => (.error (.alreadyExists b.path), s)
  | none =>
    let created := ⟨b, .initial⟩
    (.ok created, { s with blocks := s.blocks.insert b.path created })

/-- The path is that of the new value. -/
def updateBlock (v : Versioned Block) : Except StoreError (Versioned Block) × Store :=
  match s.blocks[v.value.path]? with
  | none => (.error (.notFound v.value.path), s)
  | some stored =>
    if v.revision.holdsAt stored.revision then
      let updated := ⟨v.value, v.revision.next⟩
      (.ok updated, { s with blocks := s.blocks.insert v.value.path updated })
    else
      (.error (.updateConflict v.value.path v.revision.number stored.revision.number), s)

def deleteBlock (cidr : Network) : Except StoreError Unit × Store :=
  match s.blocks[Block.pathOf cidr]? with
  | some _ => (.ok (), { s with blocks := s.blocks.erase (Block.pathOf cidr) })
  | none => (.error (.notFound (Block.pathOf cidr)), s)

def createAffinity (a : Affinity) : Except StoreError (Versioned Affinity) × Store :=
  match s.affinities[a.path]? with
  | some _ => (.error (.alreadyExists a.path), s)
  | none =>
    let created := ⟨a, .initial⟩
    (.ok created, { s with affinities := s.affinities.insert a.path created })

def deleteAffinity (a : Affinity) : Except StoreError Unit × Store :=
  match s.affinities[a.path]? with
  | some _ => (.ok (), { s with affinities := s.affinities.erase a.path })
  | none => (.error (.notFound a.path), s)

/-- The rows whose keys begin with `front`, found from the first key that is not below it. -/
def scan {α : Type} (front : String) (rows : List (String × α)) : List (String × α) :=
  (rows.dropWhile fun row => row.1 < front).takeWhile fun row =>
    front.toList.isPrefixOf row.1.toList

def listAffinities (f : AffinityFilter) : List (Versioned Affinity) :=
  let rows :=
    match f.host with
    | some host => scan (Affinity.hostPath host) s.affinities.toList
    | none => s.affinities.toList
  (rows.map Prod.snd).filter fun v => f.accepts v.value

variable {s} {b : Block} {v stored : Versioned Block} {cidr : Network} {a : Affinity}

theorem getElem?_insert_of_ne {p path : String} (h : p ≠ path) :
    (s.blocks.insert path stored)[p]? = s.blocks[p]? := by
  rw [Std.ExtTreeMap.getElem?_insert, if_neg]
  simpa using h.symm

theorem getElem?_erase_of_ne {p path : String} (h : p ≠ path) :
    (s.blocks.erase path)[p]? = s.blocks[p]? := by
  rw [Std.ExtTreeMap.getElem?_erase, if_neg]
  simpa using h.symm

theorem createBlock_of_absent (h : s.blocks[b.path]? = none) :
    s.createBlock b =
      (.ok ⟨b, .initial⟩, { s with blocks := s.blocks.insert b.path ⟨b, .initial⟩ }) := by
  simp [createBlock, h]

theorem createBlock_of_present (h : s.blocks[b.path]? = some stored) :
    s.createBlock b = (.error (.alreadyExists b.path), s) := by
  simp [createBlock, h]

theorem updateBlock_of_current (h : s.blocks[v.value.path]? = some stored)
    (hr : v.revision = stored.revision) :
    s.updateBlock v = (.ok ⟨v.value, v.revision.next⟩,
      { s with blocks := s.blocks.insert v.value.path ⟨v.value, v.revision.next⟩ }) := by
  simp [updateBlock, h, (Revision.holdsAt_iff _ _).2 hr]

theorem updateBlock_of_stale (h : s.blocks[v.value.path]? = some stored)
    (hr : v.revision ≠ stored.revision) : s.updateBlock v =
      (.error (.updateConflict v.value.path v.revision.number stored.revision.number), s) := by
  simp [updateBlock, h, mt (Revision.holdsAt_iff _ _).1 hr]

theorem updateBlock_of_absent (h : s.blocks[v.value.path]? = none) :
    s.updateBlock v = (.error (.notFound v.value.path), s) := by
  simp [updateBlock, h]

theorem deleteBlock_of_present (h : s.blocks[Block.pathOf cidr]? = some stored) :
    s.deleteBlock cidr = (.ok (), { s with blocks := s.blocks.erase (Block.pathOf cidr) }) := by
  simp [deleteBlock, h]

theorem deleteBlock_of_absent (h : s.blocks[Block.pathOf cidr]? = none) :
    s.deleteBlock cidr = (.error (.notFound (Block.pathOf cidr)), s) := by
  simp [deleteBlock, h]

theorem createAffinity_of_present {record : Versioned Affinity}
    (h : s.affinities[a.path]? = some record) :
    s.createAffinity a = (.error (.alreadyExists a.path), s) := by
  simp [createAffinity, h]

theorem exists_getElem?_createAffinity :
    ∃ record, (s.createAffinity a).2.affinities[a.path]? = some record := by
  cases h : s.affinities[a.path]? with
  | some record => exact ⟨record, by rw [createAffinity_of_present h, h]⟩
  | none => exact ⟨⟨a, .initial⟩, by simp [createAffinity, h]⟩

theorem blocks_createAffinity : (s.createAffinity a).2.blocks = s.blocks := by
  simp only [createAffinity]
  split <;> rfl

theorem blocks_deleteAffinity : (s.deleteAffinity a).2.blocks = s.blocks := by
  simp only [deleteAffinity]
  split <;> rfl

theorem getElem?_deleteAffinity : (s.deleteAffinity a).2.affinities[a.path]? = none := by
  simp only [deleteAffinity]
  split
  · simp
  · assumption

end Store

end HostBlocks
