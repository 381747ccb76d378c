/-!
# Values

Data as a configuration file or a stored record holds it, before it is known what it stands for, and
the rules by which a value is taken for something. A dialect settles the two points in which the forms
of data differ. Nothing is converted: a number is no text, and null is nothing but itself.
-/
namespace HostBlocks

inductive Value where
  | null
  | bool (b : Bool)
  | int (n : Int)
  /-- A number that is not written as an integer, by its text. -/
  | decimal (text : String)
  /-- A date or a time, by its text. -/
  | moment (text : String)
  | text (s : String)
  | list (items : List Value)
  | record (fields : List (String × Value))
deriving Inhabited

structure Dialect where
  /-- Whether a value may stand after a word that is written as the only key of a record. -/
  isUnit : Value → Bool
  /-- Whether elements past the last field of a record written as a list are passed over. -/
  surplus : Bool

namespace Dialect

def json : Dialect where
  isUnit
    | .null => true
    | _ => false
  surplus := false

def toml : Dialect where
  isUnit
    | .record [] => true
    | .list [] => true
    | _ => false
  surplus := true

end Dialect

namespace Value

def bool? : Value → Option Bool
  | bool b => some b
  | _ => none

def nat? (limit : Nat) : Value → Option Nat
  | int (.ofNat n) => if n < limit then some n else none
  | _ => none

def text? : Value → Option String
  | text s => some s
  | _ => none

def list? : Value → Option (List Value)
  | list items => some items
  | _ => none

def nullable {α : Type} (decode : Value → Option α) : Value → Option (Option α)
  | null => some none
  | v => (decode v).map some

variable {α : Type} (d : Dialect)

/-- One of the given words, as a text or as the only key of a record. -/
def word? (words : List (String × α)) : Value → Option α
  | text s => words.lookup s
  | record [(s, payload)] => if d.isUnit payload then words.lookup s else none
  | _ => none

/-- The fields of a record. A list gives the fields in the order of their names, and may end early. -/
def fields? (names : List String) : Value → Option (List (String × Value))
  | record fields => some fields
  | list items =>
    if items.length ≤ names.length || d.surplus then some (names.zip items) else none
  | _ => none

def required (fields : List (String × Value)) (name : String) (decode : Value → Option α) :
    Option α :=
  (fields.lookup name).bind decode

def optional (fields : List (String × Value)) (name : String) (absent : α)
    (decode : Value → Option α) : Option α :=
  match fields.lookup name with
  | some v => decode v
  | none => some absent

end Value

end HostBlocks
