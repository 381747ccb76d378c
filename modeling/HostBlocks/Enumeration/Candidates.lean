import HostBlocks.Enumeration.Layout
import HostBlocks.Enumeration.Words
import Std.Data.ExtTreeMap

/-!
# Candidates

The blocks of one pool in the order that the settings select. Random candidates carry the source they
are drawn from.

A walk goes from the lowest address upward. Everyone who walks the same pool sees the same order, so
the lowest free block is taken first. The walk holds the first address of the next block and stops
when the one after it would begin above the pool.

A shuffle gives every block of a pool once. It swaps its way through an array of the block indexes,
position by position, and remembers only the positions still to come that do not hold their own index.
A few blocks of a pool with very many are therefore drawn without laying out the array.
-/
namespace HostBlocks

structure Ascending where
  layout : Layout
  cursor : Option Nat

namespace Ascending

def start (l : Layout) : Ascending := ⟨l, some l.pool.base⟩

def of (pool : Network) (length : Nat) : Except SizeError Ascending :=
  (Layout.of pool length).map start

variable (w : Ascending)

def following (first : Nat) : Option Nat :=
  let next := first + 1 <<< w.layout.hostBits
  if next ≤ w.layout.pool.last then some next else none

def next : Option (Network × Ascending) :=
  w.cursor.map fun first => (w.layout.blockAt first, ⟨w.layout, w.following first⟩)

def remaining : Nat :=
  match w.cursor with
  | some first => (w.layout.pool.last - first) >>> w.layout.hostBits + 1
  | none => 0

def hint : Nat × Option Nat := sizeHint w.remaining

end Ascending

structure Shuffle where
  layout : Layout
  drawn : Nat
  displaced : Std.ExtTreeMap Nat Nat

namespace Shuffle

def start (l : Layout) : Shuffle := ⟨l, 0, ∅⟩

def of (pool : Network) (length : Nat) : Except SizeError Shuffle :=
  (Layout.of pool length).map start

variable (s : Shuffle)

/-- Index at a position of the array. -/
def held (position : Nat) : Nat := s.displaced[position]?.getD position

/-- Swaps the first position not drawn yet with position `j`, and draws what is then there. -/
def take (j : Nat) : Nat × Shuffle :=
  let ahead := s.displaced.erase s.drawn
  if j = s.drawn then (s.held s.drawn, ⟨s.layout, s.drawn + 1, ahead⟩)
  else (s.held j, ⟨s.layout, s.drawn + 1, ahead.insert j (s.held s.drawn)⟩)

def nextFrom {σ : Type} (source : Source σ) (r : σ) : Option (Network × Shuffle × σ) :=
  if s.drawn = s.layout.count then none
  else
    let position := source.draw r s.drawn s.layout.count
    let taken := s.take position.1
    some (s.layout.block taken.1, taken.2, position.2)

def next (w : Words) : Option (Network × Shuffle × Words) := s.nextFrom Words.source w

def remaining : Nat := s.layout.count - s.drawn

def hint : Nat × Option Nat := sizeHint s.remaining

end Shuffle

structure BlockLengths where
  v4 : Nat
  v6 : Nat
deriving DecidableEq

namespace BlockLengths

def standard : BlockLengths :=
  ⟨Family.v4.defaultBlockLength, Family.v6.defaultBlockLength⟩

def of (b : BlockLengths) : Family → Nat
  | .v4 => b.v4
  | .v6 => b.v6

end BlockLengths

inductive Selection where
  | sequential
  | random
deriving DecidableEq

inductive Candidates where
  | ascending (walk : Ascending)
  | shuffled (shuffle : Shuffle) (words : Words)

namespace Candidates

def of (pool : Network) (lengths : BlockLengths) (selection : Selection) (words : Words) :
    Except SizeError Candidates :=
  let length := lengths.of pool.family
  match selection with
  | .sequential => (Ascending.of pool length).map .ascending
  | .random => (Shuffle.of pool length).map (.shuffled · words)

def next : Candidates → Option (Network × Candidates)
  | .ascending walk => walk.next.map fun (cidr, walk) => (cidr, .ascending walk)
  | .shuffled shuffle words =>
    (shuffle.next words).map fun (cidr, shuffle, words) => (cidr, .shuffled shuffle words)

def remaining : Candidates → Nat
  | .ascending walk => walk.remaining
  | .shuffled shuffle _ => shuffle.remaining

def hint (c : Candidates) : Nat × Option Nat := sizeHint c.remaining

def take : Nat → Candidates → List Network
  | 0, _ => []
  | n + 1, c =>
    match c.next with
    | some (cidr, rest) => cidr :: take n rest
    | none => []

def toList (c : Candidates) : List Network := c.take c.remaining

end Candidates

end HostBlocks
