import HostBlocks.Pool
import HostBlocks.Program

/-!
# Rehearsals

A rehearsal runs programs against a world with faults set on it and keeps a list of the calls they
made. A fault waits for calls of one kind, lets some through, and then strikes a number of times: it
disturbs the world, and replies with an error or lets the call through to the world after all. Of the
faults that have strikes left, only the first that waits for a call is asked.
-/
namespace HostBlocks

structure Fault (σ : Type) where
  kind : Request.Kind
  skip : Nat
  times : Nat
  error : Option StoreError
  disturb : σ → σ

structure CatalogFault where
  text : String
  times : Nat

structure Call where
  request : Request
  failure : Option StoreError.Kind

structure Rehearsal (σ : Type) where
  world : σ
  faults : List (Fault σ)
  catalogFaults : List CatalogFault
  /-- Latest first. -/
  calls : List Call

namespace Rehearsal

variable {σ : Type}

def consult (kind : Request.Kind) : List (Fault σ) → Option (Fault σ) × List (Fault σ)
  | [] => (none, [])
  | f :: rest =>
    if f.kind = kind ∧ 0 < f.times then
      if 0 < f.skip then (none, { f with skip := f.skip - 1 } :: rest)
      else (some f, { f with times := f.times - 1 } :: rest)
    else
      let later := consult kind rest
      (later.1, f :: later.2)

def failure {α : Type} : Except StoreError α → Option StoreError.Kind
  | .ok _ => none
  | .error e => some e.kind

variable (serve : (r : Request) → σ → r.Reply × σ)

def served (r : Request) (struck : Option (Fault σ)) (world : σ) : r.Reply × σ :=
  match struck with
  | none => serve r world
  | some f =>
    match f.error with
    | some e => (.error e, f.disturb world)
    | none => serve r (f.disturb world)

def reply (r : Request) : StateM (Rehearsal σ) r.Reply := fun now =>
  let consulted := consult r.kind now.faults
  let answer := served serve r consulted.1 now.world
  (answer.1, { now with
    world := answer.2
    faults := consulted.2
    calls := ⟨r, failure answer.1⟩ :: now.calls })

def perform {α : Type} (p : Program α) : StateM (Rehearsal σ) α := p.runWith (reply serve)

def consultCatalog : List CatalogFault → Option CatalogFault × List CatalogFault
  | [] => (none, [])
  | f :: rest =>
    if 0 < f.times then (some f, { f with times := f.times - 1 } :: rest)
    else
      let later := consultCatalog rest
      (later.1, f :: later.2)

def readCatalog (pools : List Pool) : StateM (Rehearsal σ) Catalog := fun now =>
  let consulted := consultCatalog now.catalogFaults
  let catalog : Catalog :=
    match consulted.1 with
    | some f => .error (.unavailable f.text)
    | none => .ok pools
  (catalog, { now with catalogFaults := consulted.2 })

end Rehearsal

end HostBlocks
