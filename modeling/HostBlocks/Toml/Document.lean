import HostBlocks.Toml.Number
import HostBlocks.Toml.Table

/-!
# Documents

A TOML document is a sequence of lines: comments, headers, and keys with values. Arrays and records in
braces nest, up to a depth, and dotted keys have a bound of the same size on their parts. A record in
braces is on one line and has no comma after its last key.
-/
namespace HostBlocks.Toml

open Reader

/-- Nesting reaches at most one less than this, and so do the parts of a dotted key. -/
def depthLimit : Nat := 80

def isBareKey (c : Char) : Bool := c.isAlphanum || c = '_' || c = '-'

def simpleKey : Reader String := do
  let cs ← basicLine <|> literalLine <|> (do
    let first ← satisfy isBareKey
    let rest ← many (satisfy isBareKey)
    return first :: rest)
  return String.ofList cs

def key : Reader (List String × String) := do
  let parts ← separated (char '.') do
    blanks
    let part ← simpleKey
    blanks
    return part
  match parts.getLast? with
  | some last => if parts.length < depthLimit then return (parts.dropLast, last) else failure
  | none => failure

def scalar : Reader Value :=
  (do return .text (← string))
  <|> (do return .moment (String.ofList (← moment)))
  <|> (do return .decimal (String.ofList (← decimal)))
  <|> (do return .int (← integer))
  <|> (do exactly "true".toList; return .bool true)
  <|> (do exactly "false".toList; return .bool false)

/-- A comma may stand after the last value. -/
def array (item : Reader Value) : Reader Value := do
  char '['
  let items ← optional do
    let items ← separated (char ',') do
      filler
      let v ← item
      filler
      return v
    let _ ← optional (char ',')
    return items
  filler
  char ']'
  return .list (items.getD [])

def pair (item : Reader Value) : Reader (List String × String × Value) := do
  let (path, last) ← key
  char '='
  blanks
  let v ← item
  return (path, last, v)

def inlineTable (item : Reader Value) : Reader Value := do
  char '\x7b'
  let pairs ← optional do
    separated (char ',') do
      let p ← pair item
      blanks
      return p
  blanks
  char '\x7d'
  match Entries.ofPairs (pairs.getD []) with
  | some entries => return .record (entryValues entries)
  | none => failure

def value : Nat → Reader Value
  | 0 => scalar
  | depth + 1 => scalar <|> array (value depth) <|> inlineTable (value depth)

inductive Statement where
  | blank
  | assign (path : List String) (key : String) (v : Value)
  | table (path : List String) (key : String)
  | row (path : List String) (key : String)

def rowHeader : Reader Statement := do
  exactly ['[', '[']
  let (path, last) ← key
  exactly [']', ']']
  return .row path last

def tableHeader : Reader Statement := do
  char '['
  let (path, last) ← key
  char ']'
  return .table path last

def assignment : Reader Statement := do
  let (path, last, v) ← pair (value (depthLimit - 1))
  return .assign path last v

def line : Reader Statement := do
  blanks
  (do newline; return .blank)
    <|> (do comment; lineEnd; return .blank)
    <|> (do
      let statement ← rowHeader <|> tableHeader <|> assignment
      trailing
      return statement)

structure Building where
  entries : Entries
  header : List String

def Building.add (b : Building) : Statement → Option Building
  | .blank => some b
  | .assign path key v => do
    return { b with entries := ← b.entries.assignAt b.header path key v }
  | .table path key => do
    return ⟨← b.entries.writeTable path key, path ++ [key]⟩
  | .row path key => do
    return ⟨← b.entries.addRow path key, path ++ [key]⟩

def document : Reader (List Statement) := do
  let _ ← optional (char '\ufeff')
  let statements ← many line
  blanks
  atEnd
  return statements

def parse? (text : String) : Option Value := do
  let (statements, _) ← document text.toList
  let built ← statements.foldlM Building.add ⟨[], []⟩
  return .record (entryValues built.entries)

end HostBlocks.Toml
