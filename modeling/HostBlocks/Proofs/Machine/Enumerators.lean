import HostBlocks.Proofs.Enumeration.Permutation
import HostBlocks.Proofs.Machine.Arithmetic

/-!
# Enumerators on a machine

The ascending walk and the shuffle as a machine with words of 128 bits runs them, each step of their
arithmetic an operation that may be a fault. Lengths are numbers of eight bits. Who asks an enumerator
makes calls for the next block and for the hint in any order, and the replies are all that is seen of it.
-/
namespace HostBlocks

namespace Enumerator

inductive Call where
  | next
  | hint

inductive Reply (α : Type) where
  | found (a : Option α)
  | hint (bounds : Nat × Option Nat)

variable {σ α : Type}

def replies (next : σ → Option (α × σ)) (hint : σ → Nat × Option Nat) : List Call → σ → List (Reply α)
  | [], _ => []
  | .next :: calls, s =>
    .found ((next s).map Prod.fst) :: replies next hint calls ((next s).elim s Prod.snd)
  | .hint :: calls, s => .hint (hint s) :: replies next hint calls s

/-- Blocks found are among those that the enumerator gives. -/
theorem Gives.mem_of_found {next : σ → Option (α × σ)} {s : σ} {order : List α}
    (h : Gives next s order) {hint : σ → Nat × Option Nat} {calls : List Call} {a : α}
    (ha : .found (some a) ∈ replies next hint calls s) : a ∈ order := by
  induction calls generalizing s order with
  | nil => cases ha
  | cons call calls ih =>
    cases call with
    | hint => exact ih h ((List.mem_cons.1 ha).resolve_left nofun)
    | next =>
      cases order with
      | nil =>
        have hnext := h.next_eq_none
        rw [replies, hnext] at ha
        exact ih h ((List.mem_cons.1 ha).resolve_left nofun)
      | cons b order =>
        obtain ⟨s', hnext, hrest⟩ := h.exists_next
        rw [replies, hnext] at ha
        rcases List.mem_cons.1 ha with ha | ha
        · cases ha
          exact List.mem_cons_self
        · exact List.mem_cons_of_mem _ (ih hrest ha)

end Enumerator

namespace Machine

abbrev Word := BitVec 128

structure Frame where
  family : Family
  base : Word
  last : Word
  length : BitVec 8
  hostBits : BitVec 8
  count : Word

namespace Frame

def of (pool : Network) (length : BitVec 8) : Except Fault (Except SizeError Frame) := do
  let width := BitVec.ofNat 8 pool.family.width
  let poolLength := BitVec.ofNat 8 pool.length
  if length = 0 ∨ width < length then
    return .error (.invalidLength pool.family length.toNat)
  if length < poolLength then
    return .error (.poolTooSmall pool length.toNat)
  let split ← sub length poolLength
  if 128 ≤ split.toNat then
    return .error (.tooManyBlocks pool length.toNat)
  let hostBits ← sub width length
  return .ok {
    family := pool.family
    base := BitVec.ofNat 128 pool.base
    last := BitVec.ofNat 128 pool.last
    length, hostBits
    count := (1 : Word) <<< split.toNat }

variable (f : Frame)

def blockAt (first : Word) : Except Fault Network := do
  let bits ← narrow f.family.width first
  if h : f.length.toNat ≤ f.family.width then
    return ⟨⟨f.family, bits.toNat, bits.isLt⟩, f.length.toNat, h⟩
  else .error .lengthTooLong

def block (index : Word) : Except Fault Network := do
  let offset ← shiftLeft index f.hostBits.toNat
  let first ← add f.base offset
  f.blockAt first

end Frame

structure Walk where
  frame : Frame
  cursor : Option Word

namespace Walk

def start (f : Frame) : Walk := ⟨f, some f.base⟩

variable (w : Walk)

/-- Where the block after the one at `current` begins, unless that is no word or above the pool. -/
def following (current size : Word) : Option Word :=
  if current.uaddOverflow size then none
  else if current + size ≤ w.frame.last then some (current + size) else none

def next : Except Fault (Option (Network × Walk)) :=
  match w.cursor with
  | none => return none
  | some current => do
    let size ← shiftLeft (1 : Word) w.frame.hostBits.toNat
    let cidr ← w.frame.blockAt current
    return some (cidr, ⟨w.frame, w.following current size⟩)

def hint : Except Fault (Nat × Option Nat) :=
  match w.cursor with
  | none => return (0, some 0)
  | some next => do
    let rest ← sub w.frame.last next
    let blocks ← shiftRight rest w.frame.hostBits.toNat
    let remaining ← add blocks 1
    return sizeHint remaining.toNat

end Walk

structure Deck where
  frame : Frame
  drawn : Word
  displaced : Std.ExtTreeMap Word Word

namespace Deck

def start (f : Frame) : Deck := ⟨f, 0, ∅⟩

variable (d : Deck)

def take (j : Word) : Except Fault (Word × Deck) := do
  let held := d.displaced[d.drawn]?.getD d.drawn
  let ahead := d.displaced.erase d.drawn
  let drawn ← add d.drawn 1
  if j = d.drawn then return (held, ⟨d.frame, drawn, ahead⟩)
  else return (ahead[j]?.getD j, ⟨d.frame, drawn, ahead.insert j held⟩)

def next {σ : Type} (source : Source σ) (r : σ) : Except Fault (Option (Network × Deck × σ)) :=
  if d.drawn = d.frame.count then return none
  else if h : d.drawn.toNat < d.frame.count.toNat then do
    let position := source.draw r d.drawn.toNat d.frame.count.toNat
    let (index, rest) ← d.take
      (.ofNatLT position.1 (Nat.lt_trans (source.draw_lt r h) d.frame.count.isLt))
    let cidr ← d.frame.block index
    return some (cidr, rest, position.2)
  else .error .emptyRange

def hint : Except Fault (Nat × Option Nat) := do
  let remaining ← sub d.frame.count d.drawn
  return sizeHint remaining.toNat

end Deck

variable {μ σ α : Type}

/-- The replies of an enumerator on a machine, up to the first fault. -/
def replies (next : μ → Except Fault (Option (α × μ))) (hint : μ → Except Fault (Nat × Option Nat)) :
    List Enumerator.Call → μ → Except Fault (List (Enumerator.Reply α))
  | [], _ => return []
  | .next :: calls, m => do
    let found ← next m
    let rest ← replies next hint calls (found.elim m Prod.snd)
    return .found (found.map Prod.fst) :: rest
  | .hint :: calls, m => do
    let bounds ← hint m
    let rest ← replies next hint calls m
    return .hint bounds :: rest

/-- An enumerator on a machine that goes along with another replies as that one does, without a fault. -/
theorem replies_eq_ok {next : μ → Except Fault (Option (α × μ))}
    {hint : μ → Except Fault (Nat × Option Nat)} {next' : σ → Option (α × σ)}
    {hint' : σ → Nat × Option Nat} (along : μ → σ → Prop)
    (hnext : ∀ m s, along m s → ∃ found, next m = .ok found ∧
      Option.Rel (fun p q => p.1 = q.1 ∧ along p.2 q.2) found (next' s))
    (hhint : ∀ m s, along m s → hint m = .ok (hint' s)) {m : μ} {s : σ} (h : along m s)
    (calls : List Enumerator.Call) :
    replies next hint calls m = .ok (Enumerator.replies next' hint' calls s) := by
  induction calls generalizing m s with
  | nil => rfl
  | cons call calls ih =>
    cases call with
    | hint =>
      rw [replies, hhint m s h, Enumerator.replies]
      simp only [bind, Except.bind, ih h]
      rfl
    | next =>
      obtain ⟨found, hfound, hrel⟩ := hnext m s h
      rw [replies, hfound, Enumerator.replies]
      cases hs : next' s with
      | none =>
        rw [hs] at hrel
        cases hrel
        simp only [bind, Except.bind, Option.elim_none, ih h]
        rfl
      | some q =>
        rw [hs] at hrel
        cases hrel with
        | some hpq =>
          obtain ⟨ha, halong⟩ := hpq
          simp only [bind, Except.bind, Option.elim_some, ih halong, Option.map_some, ha]
          rfl

end Machine

end HostBlocks
