/-!
# Numerals

Positional notation in two sizes. Numbers of a fixed count of digits, such as the octets of an
address, are lists of digits with the most significant first. Numbers in a text are written by
`Nat.toDigits` and read here: a numeral is the longest run of digits at the front of the text, and
it is refused when it has too many digits or too large a value.

A power in this library is that of the core library, whichever other instances a module has in scope.
The priorities are above those of algebraic libraries, for types that are known and for types that
are not.
-/
namespace HostBlocks

@[default_instance 20000]
instance (priority := 2000) powOfNatPow {α : Type} [NatPow α] : Pow α Nat := instPowNat

namespace Numeral

def digits (b : Nat) : Nat → Nat → List Nat
  | 0, _ => []
  | count + 1, n => digits b count (n / b) ++ [n % b]

def value (b : Nat) (ds : List Nat) : Nat :=
  ds.foldl (fun n d => n * b + d) 0

def digit? (b : Nat) (c : Char) : Option Nat :=
  let d :=
    if '0' ≤ c ∧ c ≤ '9' then c.toNat - '0'.toNat
    else if 'a' ≤ c ∧ c ≤ 'f' then c.toNat - 'a'.toNat + 10
    else if 'A' ≤ c ∧ c ≤ 'F' then c.toNat - 'A'.toNat + 10
    else b
  if d < b then some d else none

def takeDigits (b : Nat) : List Char → List Nat × List Char
  | [] => ([], [])
  | c :: s =>
    match digit? b c with
    | some d => (d :: (takeDigits b s).1, (takeDigits b s).2)
    | none => ([], c :: s)

/-- Zeros in front count among the `places`. -/
def read (b places limit : Nat) (s : List Char) : Option (Nat × List Char) :=
  let (ds, rest) := takeDigits b s
  if ds = [] ∨ places < ds.length ∨ limit ≤ value b ds then none else some (value b ds, rest)

theorem length_digits (b count n : Nat) : (digits b count n).length = count := by
  induction count generalizing n with
  | zero => rfl
  | succ count ih => simp [digits, ih]

theorem value_append (b : Nat) (ds : List Nat) (d : Nat) :
    value b (ds ++ [d]) = value b ds * b + d := by
  simp [value]

theorem value_digits (b count n : Nat) : value b (digits b count n) = n % b ^ count := by
  induction count generalizing n with
  | zero => simp [digits, value, Nat.mod_one]
  | succ count ih =>
    rw [digits, value_append, ih, Nat.pow_succ, Nat.mul_comm (b ^ count) b, Nat.mod_mul,
      Nat.mul_comm b]
    omega

end Numeral

end HostBlocks
