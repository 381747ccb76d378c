import HostBlocks.Numeral

/-!
# Revisions

A revision counts the changes of a record since it was created. A value read from the store carries the
revision it was read at, and passing both back is what makes an update conditional. Revisions have numbers
of 64 bits from one on, and after the last comes the first again.
-/
namespace HostBlocks

@[ext]
structure Revision where
  number : Nat
  number_pos : 0 < number
  number_lt : number < 2 ^ 64
deriving DecidableEq

namespace Revision

def initial : Revision := ⟨1, by decide, by decide⟩

/-- Zero is skipped when the numbers run out. -/
def next (r : Revision) : Revision :=
  if h : r.number + 1 < 2 ^ 64 then ⟨r.number + 1, Nat.succ_pos _, h⟩ else initial

theorem number_next (r : Revision) :
    r.next.number = if r.number + 1 < 2 ^ 64 then r.number + 1 else 1 := by
  unfold next
  split <;> rfl

example : next ⟨2 ^ 64 - 1, by decide, by decide⟩ = initial := by decide

theorem number_next_of_lt {r : Revision} (h : r.number + 1 < 2 ^ 64) :
    r.next.number = r.number + 1 := by
  rw [number_next, if_pos h]

def holdsAt (r current : Revision) : Bool := r.number = current.number

theorem holdsAt_iff (r current : Revision) : r.holdsAt current ↔ r = current := by
  simp [holdsAt, Revision.ext_iff]

/-- The revision with the time of the change in microseconds, which nothing compares. -/
def stamp (r : Revision) (micros : Int) : String :=
  "V" ++ toString r.number ++ "-T" ++ toString micros

end Revision

structure Versioned (α : Type) where
  value : α
  revision : Revision
deriving DecidableEq

end HostBlocks
