import HostBlocks.Toml.Text

/-!
# Numbers, dates and times

Single underscores may stand between digits. Integers are in base ten, or in bases sixteen, eight and
two after a mark and then without a sign, and have 64 bits. Decimal fractions are kept by their text;
one that is too large for a double is refused, unless it is negative.

A date, a time of day, or both with or without an offset. The day has to be in its month; a minute may
have a sixty-first second.
-/
namespace HostBlocks.Toml

open Reader

def digitRun (base : Nat) : Reader (List Nat) := do
  let first ← digit base
  let rest ← many (digit base <|> do
    char '_'
    digit base)
  return first :: rest

def sign : Reader Bool :=
  (do char '-'; return true) <|> (do char '+'; return false) <|> pure false

/-- No zeros stand in front. -/
def wholePart : Reader (List Nat) :=
  (do char '0'; return [0]) <|> digitRun 10

def signed (negative : Bool) (n : Nat) : Int := if negative then -n else n

def marked (mark : Char) (base : Nat) : Reader Int := do
  exactly ['0', mark]
  let ds ← digitRun base
  return Numeral.value base ds

def decimalInteger : Reader Int := do
  let negative ← sign
  let ds ← wholePart
  return signed negative (Numeral.value 10 ds)

def integer : Reader Int := do
  let n ← marked 'x' 16 <|> marked 'o' 8 <|> marked 'b' 2 <|> decimalInteger
  if -2 ^ 63 ≤ n ∧ n < 2 ^ 63 then return n else failure

/-- The least number that rounds to no double. -/
def doubleLimit : Nat := 2 ^ 1024 - 2 ^ 970

/-- Whether `m` times ten to the power of `e` is too large for a double. Only exponents near the limit
are worked out. -/
def overflows (m : Nat) (e : Int) : Bool :=
  let size := (Nat.toDigits 10 m).length + e
  if m = 0 then false
  else if size < 300 then false
  else if 320 < size then true
  else if 0 ≤ e then doubleLimit ≤ m * 10 ^ e.toNat
  else doubleLimit * 10 ^ (-e).toNat ≤ m

def exponentPart : Reader Int := do
  char 'e' <|> char 'E'
  let negative ← sign
  let ds ← digitRun 10
  return signed negative (Numeral.value 10 ds)

def fractionPart : Reader (List Nat) := do
  char '.'
  digitRun 10

def fraction : Reader Unit := do
  let negative ← sign
  let whole ← wholePart
  let point ← optional fractionPart
  let exponent ← optional exponentPart
  let places := point.getD []
  if point.isNone ∧ exponent.isNone then failure
  let m := Numeral.value 10 (whole ++ places)
  if overflows m (exponent.getD 0 - places.length) ∧ !negative then failure

def wordNumber : Reader Unit := do
  let _ ← sign
  exactly ['i', 'n', 'f'] <|> exactly ['n', 'a', 'n']

def decimal : Reader (List Char) := taken (fraction <|> wordNumber)

/-- A number of exactly so many digits, from `lo` up to `hi`. -/
def fixed (places lo hi : Nat) : Reader Nat := do
  let n := Numeral.value 10 (← times (digit 10) places)
  if lo ≤ n ∧ n ≤ hi then return n else failure

def isLeapYear (year : Nat) : Bool := year % 4 = 0 && (year % 100 ≠ 0 || year % 400 = 0)

def daysIn (year month : Nat) : Nat :=
  if month = 2 then if isLeapYear year then 29 else 28
  else if month = 4 ∨ month = 6 ∨ month = 9 ∨ month = 11 then 30
  else 31

def date : Reader Unit := do
  let year ← fixed 4 0 9999
  char '-'
  let month ← fixed 2 1 12
  char '-'
  let _ ← fixed 2 1 (daysIn year month)

def hourAndMinute : Reader Unit := do
  let _ ← fixed 2 0 23
  char ':'
  let _ ← fixed 2 0 59

def timeOfDay : Reader Unit := do
  hourAndMinute
  char ':'
  let _ ← fixed 2 0 60
  let _ ← optional do
    char '.'
    let _ ← digit 10
    many (digit 10)

def offset : Reader Unit :=
  char 'Z' <|> char 'z' <|> do
    char '+' <|> char '-'
    hourAndMinute

def dateAndTime : Reader Unit := do
  date
  let _ ← optional do
    char 'T' <|> char 't' <|> char ' '
    timeOfDay
    optional offset

def moment : Reader (List Char) := taken (dateAndTime <|> timeOfDay)

end HostBlocks.Toml
