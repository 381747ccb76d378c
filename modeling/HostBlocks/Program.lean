import HostBlocks.Store

/-!
# Programs

Requests are the calls that can be made on a store, as data, with the type of the answer to each.
`Store.answer` is how the store of this library serves them.

An operation on a store is a tree: it is done, or it makes one request and goes on by the reply. The
same tree is run alone against a store, against anything else that can reply, or one call at a time
among other programs.
-/
namespace HostBlocks

inductive Request where
  | getBlock (cidr : Network)
  | createBlock (block : Block)
  | updateBlock (block : Versioned Block)
  | deleteBlock (cidr : Network)
  | createAffinity (affinity : Affinity)
  | deleteAffinity (affinity : Affinity)
  | listAffinities (filter : AffinityFilter)

inductive Request.Kind where
  | getBlock
  | createBlock
  | updateBlock
  | deleteBlock
  | createAffinity
  | deleteAffinity
  | listAffinities
deriving DecidableEq

namespace Request

def kind : Request → Kind
  | getBlock _ => .getBlock
  | createBlock _ => .createBlock
  | updateBlock _ => .updateBlock
  | deleteBlock _ => .deleteBlock
  | createAffinity _ => .createAffinity
  | deleteAffinity _ => .deleteAffinity
  | listAffinities _ => .listAffinities

abbrev Value : Request → Type
  | getBlock _ => Versioned Block
  | createBlock _ => Versioned Block
  | updateBlock _ => Versioned Block
  | deleteBlock _ => Unit
  | createAffinity _ => Versioned Affinity
  | deleteAffinity _ => Unit
  | listAffinities _ => List (Versioned Affinity)

abbrev Reply (r : Request) : Type := Except StoreError r.Value

end Request

def Store.answer (s : Store) : (r : Request) → r.Reply × Store
  | .getBlock cidr => (s.getBlock cidr, s)
  | .createBlock block => s.createBlock block
  | .updateBlock block => s.updateBlock block
  | .deleteBlock cidr => s.deleteBlock cidr
  | .createAffinity affinity => s.createAffinity affinity
  | .deleteAffinity affinity => s.deleteAffinity affinity
  | .listAffinities filter => (.ok (s.listAffinities filter), s)

inductive Program (α : Type) where
  | done (result : α)
  | call (request : Request) (next : request.Reply → Program α)

namespace Program

variable {α β : Type}

def bind (p : Program α) (f : α → Program β) : Program β :=
  match p with
  | done a => f a
  | call r next => call r fun reply => (next reply).bind f

def map (f : α → β) (p : Program α) : Program β := p.bind fun a => done (f a)

def run (p : Program α) (s : Store) : α × Store :=
  match p with
  | done a => (a, s)
  | call r next =>
    let served := s.answer r
    (next served.1).run served.2

def runWith {m : Type → Type} [Monad m] (reply : (r : Request) → m r.Reply) : Program α → m α
  | done a => pure a
  | call r next => do
    let answer ← reply r
    runWith reply (next answer)

@[simp] theorem run_done (a : α) (s : Store) : (done a).run s = (a, s) := rfl

@[simp] theorem run_call (r : Request) (next : r.Reply → Program α) (s : Store) :
    (call r next).run s = (next (s.answer r).1).run (s.answer r).2 := rfl

theorem run_bind (p : Program α) (f : α → Program β) (s : Store) :
    (p.bind f).run s = (f (p.run s).1).run (p.run s).2 := by
  induction p generalizing s with
  | done a => rfl
  | call r next ih => exact ih _ _

theorem run_map (f : α → β) (p : Program α) (s : Store) :
    (p.map f).run s = (f (p.run s).1, (p.run s).2) :=
  run_bind p _ s

end Program

end HostBlocks
