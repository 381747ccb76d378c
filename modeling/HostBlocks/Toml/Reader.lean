/-!
# Readers

A reader takes something from the front of a text or fails, and leaves the text after it. The second
of two alternatives starts where the first did.

The marks of TOML that mean nothing by themselves are read here: blanks, line ends and comments.
-/
namespace HostBlocks.Toml

abbrev Reader : Type → Type := StateT (List Char) Option

namespace Reader

variable {α : Type}

def satisfy (p : Char → Bool) : Reader Char
  | c :: s => if p c then some (c, s) else none
  | [] => none

def char (c : Char) : Reader Unit := do
  let _ ← satisfy (· = c)

def exactly : List Char → Reader Unit
  | [] => pure ()
  | c :: cs => do
    char c
    exactly cs

def atEnd : Reader Unit
  | [] => some ((), [])
  | _ => none

def upTo (r : Reader α) : Nat → Reader (List α)
  | 0 => pure []
  | n + 1 => (do return (← r) :: (← upTo r n)) <|> pure []

/-- As many as there are. Each has to take something from the text. -/
def many (r : Reader α) : Reader (List α) := fun s => upTo r s.length s

def times (r : Reader α) : Nat → Reader (List α)
  | 0 => pure []
  | n + 1 => do return (← r) :: (← times r n)

def separated (separator : Reader Unit) (r : Reader α) : Reader (List α) := do
  let first ← r
  let rest ← many do
    separator
    r
  return first :: rest

def taken (r : Reader α) : Reader (List Char) := fun s =>
  (r s).map fun read => (s.take (s.length - read.2.length), read.2)

end Reader

open Reader

def isBlank (c : Char) : Bool := c = ' ' || c = '\t'

def isBeyondAscii (c : Char) : Bool := 0x80 ≤ c.toNat

def isCommentChar (c : Char) : Bool :=
  c = '\t' || (0x20 ≤ c.toNat && c.toNat ≤ 0x7e) || isBeyondAscii c

def blanks : Reader Unit := do
  let _ ← many (satisfy isBlank)

/-- A carriage return ends a line only together with a line feed. -/
def newline : Reader Unit := char '\n' <|> exactly ['\r', '\n']

def comment : Reader Unit := do
  char '#'
  let _ ← many (satisfy isCommentChar)

def lineEnd : Reader Unit := newline <|> atEnd

def trailing : Reader Unit := do
  blanks
  let _ ← optional comment
  lineEnd

def filler : Reader Unit := do
  blanks
  let _ ← many do
    let _ ← optional comment
    newline
    blanks

end HostBlocks.Toml
