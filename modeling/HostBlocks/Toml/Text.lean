import HostBlocks.Numeral
import HostBlocks.Toml.Reader

/-!
# Strings

Strings in double quotes have escapes, strings in single quotes have none. Either kind is on one line,
or between three quotes each over many lines, where a line end right after the opening is dropped and
every other one is a line feed.
-/
namespace HostBlocks.Toml

open Reader

def digit (base : Nat) : Reader Nat := fun s =>
  match s with
  | c :: s => (Numeral.digit? base c).map (·, s)
  | [] => none

/-- A character by its code in so many hexadecimal digits. Surrogates are no characters. -/
def codePoint (digits : Nat) : Reader Char := do
  let code := Numeral.value 16 (← times (digit 16) digits)
  if code.isValidChar then return Char.ofNat code else failure

def shortEscapes : List (Char × Char) :=
  [('b', '\x08'), ('t', '\t'), ('n', '\n'), ('f', '\x0c'), ('r', '\r'), ('"', '"'), ('\\', '\\')]

def escape : Reader Char := do
  char '\\'
  let c ← satisfy fun _ => true
  if c = 'u' then codePoint 4
  else if c = 'U' then codePoint 8
  else
    match shortEscapes.lookup c with
    | some d => return d
    | none => failure

def isPlain (quote : Char) (c : Char) : Bool := isCommentChar c && c ≠ quote

def isBasic (c : Char) : Bool := isPlain '"' c && c ≠ '\\'

def basicLine : Reader (List Char) := do
  char '"'
  let cs ← many (satisfy isBasic <|> escape)
  char '"'
  return cs

def literalLine : Reader (List Char) := do
  char '\''
  let cs ← many (satisfy (isPlain '\''))
  char '\''
  return cs

def quoteRun (quote : Char) (s : List Char) : Nat := (s.takeWhile (· = quote)).length

/-- One or two quotes are part of a string of many lines. -/
def innerQuotes (quote : Char) : Reader (List Char) := fun s =>
  let n := quoteRun quote s
  if n = 1 ∨ n = 2 then some (List.replicate n quote, s.drop n) else none

/-- Three quotes close the string, and up to two before them are still part of it. -/
def closingQuotes (quote : Char) : Reader (List Char) := fun s =>
  let n := quoteRun quote s
  let inner := min (n - 3) 2
  if 3 ≤ n then some (List.replicate inner quote, s.drop (inner + 3)) else none

/-- A backslash at the end of a line takes the blanks and line ends after it away. -/
def joinedLines : Reader (List Char) := do
  char '\\'
  blanks
  newline
  let _ ← many do
    (do let _ ← satisfy isBlank) <|> newline
  return []

def innerNewline : Reader (List Char) := do
  newline
  return ['\n']

def one (r : Reader Char) : Reader (List Char) := do
  return [← r]

def lines (quote : Char) (piece : Reader (List Char)) : Reader (List Char) := do
  exactly [quote, quote, quote]
  let _ ← optional newline
  let pieces ← many (piece <|> innerNewline <|> innerQuotes quote)
  let closing ← closingQuotes quote
  return pieces.flatten ++ closing

def basicLines : Reader (List Char) :=
  lines '"' (one (satisfy isBasic) <|> joinedLines <|> one escape)

def literalLines : Reader (List Char) := lines '\'' (one (satisfy (isPlain '\'')))

def string : Reader String := do
  let cs ← basicLines <|> basicLine <|> literalLines <|> literalLine
  return String.ofList cs

end HostBlocks.Toml
