import HostBlocks.Address

/-!
# The text of addresses

Addresses of the fourth family are four octets in decimal. Addresses of the sixth are eight groups in
hexadecimal, and the first of the longest runs of two or more zero groups is written as two colons.
The addresses that stand for addresses of the fourth family are written with a dotted end.

Addresses are read by two grammars that differ in two points. The strict one, for addresses that stand
alone, refuses an octet with zeros in front and lets two colons stand for at least one group. The
loose one, for the addresses of networks, allows such octets and lets two colons stand for no group at
all.

Readers take a text from its front and give what they read together with the text after it.
-/
namespace HostBlocks

namespace Address

def octets (n : Nat) : List Nat := Numeral.digits 256 4 n

def groups (n : Nat) : List Nat := Numeral.digits 65536 8 n

def writeOctets (os : List Nat) : List Char :=
  List.intercalate ['.'] (os.map (Nat.toDigits 10))

def writeGroups (gs : List Nat) : List Char :=
  List.intercalate [':'] (gs.map (Nat.toDigits 16))

def leadingZeros (gs : List Nat) : Nat := (gs.takeWhile (· = 0)).length

/-- Where the first of the longest runs of zeros begins, and its length. -/
def longestGap : List Nat → Nat × Nat
  | [] => (0, 0)
  | g :: gs =>
    let (start, size) := longestGap gs
    let here := leadingZeros (g :: gs)
    if size ≤ here then (0, here) else (start + 1, size)

def writeCompressed (gs : List Nat) : List Char :=
  let (start, size) := longestGap gs
  if 2 ≤ size then
    writeGroups (gs.take start) ++ [':', ':'] ++ writeGroups (gs.drop (start + size))
  else writeGroups gs

def isMapped (a : Address) : Bool :=
  match a.family with
  | .v4 => false
  | .v6 => a.bits / 2 ^ 32 = 0xffff

def chars (a : Address) : List Char :=
  match a.family with
  | .v4 => writeOctets (octets a.bits)
  | .v6 =>
    if a.isMapped then "::ffff:".toList ++ writeOctets (octets a.bits)
    else writeCompressed (groups a.bits)

def text (a : Address) : String := String.ofList a.chars

end Address

structure Grammar where
  /-- Whether an octet may have zeros in front. -/
  zeroLed : Bool
  /-- The least number of groups that two colons stand for. -/
  leastGap : Nat

namespace Grammar

def strict : Grammar := ⟨false, 1⟩

def loose : Grammar := ⟨true, 0⟩

variable (g : Grammar)

def readOctet (s : List Char) : Option (Nat × List Char) :=
  if !g.zeroLed && s.head? = some '0' && 1 < (Numeral.takeDigits 10 s).1.length then none
  else Numeral.read 10 3 256 s

def readMark (mark : Char) : List Char → Option (List Char)
  | c :: s => if c = mark then some s else none
  | [] => none

/-- Reads `count` octets, all but the first after a dot, into `n`. -/
def readOctets : Nat → Nat → List Char → Option (Nat × List Char)
  | 0, n, s => some (n, s)
  | count + 1, n, s => do
    let s ← readMark '.' s
    let (o, s) ← g.readOctet s
    readOctets count (n * 256 + o) s

def readDotted (s : List Char) : Option (Nat × List Char) := do
  let (o, s) ← g.readOctet s
  g.readOctets 3 o s

def skipColon (first : Bool) (s : List Char) : Option (List Char) :=
  if first then some s else readMark ':' s

/-- What a list of groups came to: its groups, whether a dotted end stopped it, and the text after it. -/
structure Groups where
  groups : List Nat
  dotted : Bool
  rest : List Char

/-- Reads groups while there are places for them. A dotted end takes two places. -/
def readGroups : Nat → Bool → List Char → Groups
  | 0, _, s => ⟨[], false, s⟩
  | places + 1, first, s =>
    match if 1 ≤ places then (skipColon first s).bind g.readDotted else none with
    | some (n, rest) => ⟨[n / 65536, n % 65536], true, rest⟩
    | none =>
      match (skipColon first s).bind (Numeral.read 16 4 65536) with
      | some (n, rest) =>
        let more := readGroups places false rest
        ⟨n :: more.groups, more.dotted, more.rest⟩
      | none => ⟨[], false, s⟩

def fillGap (before after : List Nat) : List Nat :=
  before ++ List.replicate (8 - before.length - after.length) 0 ++ after

def readColons (s : List Char) : Option (Nat × List Char) :=
  let front := g.readGroups 8 true s
  if front.groups.length = 8 then some (Numeral.value 65536 front.groups, front.rest)
  else if front.dotted then none
  else do
    let s ← readMark ':' front.rest
    let s ← readMark ':' s
    let back := g.readGroups (8 - front.groups.length - g.leastGap) true s
    some (Numeral.value 65536 (fillGap front.groups back.groups), back.rest)

def readFamily (f : Family) (s : List Char) : Option (Address × List Char) :=
  match f with
  | .v4 => (g.readDotted s).map fun (n, rest) => (.ofBits .v4 n, rest)
  | .v6 => (g.readColons s).map fun (n, rest) => (.ofBits .v6 n, rest)

end Grammar

def whole {α : Type} : Option (α × List Char) → Option α
  | some (a, []) => some a
  | _ => none

namespace Address

def parse? (s : List Char) : Option Address :=
  whole (Grammar.strict.readFamily .v4 s) <|> whole (Grammar.strict.readFamily .v6 s)

def ofText? (s : String) : Option Address := parse? s.toList

end Address

end HostBlocks
