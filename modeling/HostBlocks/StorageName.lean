import HostBlocks.Network

/-!
# Storage names

Addresses and networks as names that are safe in storage paths: dots, colons and the slash of the
text all become dashes. Nothing in a name says which dash was which. Reading takes a name for the
sixth family when two dashes stand together or when there are more than three.
-/
namespace HostBlocks.StorageName

inductive Error where
  | notAddress (name : String)
  | notNetwork (name : String)
deriving DecidableEq

def Error.message : Error → String
  | .notAddress name => "invalid resource name " ++ name ++ ": does not follow the IP name format"
  | .notNetwork name =>
    "invalid resource name " ++ name ++ ": does not follow the IP network name format"

def isMark (c : Char) : Bool := c = '.' || c = ':' || c = '/'

def dashed (s : List Char) : List Char :=
  s.map fun c => if isMark c then '-' else c

def ofAddress (a : Address) : String := String.ofList (dashed a.chars)

def ofNetwork (n : Network) : String := String.ofList (dashed n.chars)

def hasDoubleDash : List Char → Bool
  | '-' :: '-' :: _ => true
  | _ :: s => hasDoubleDash s
  | [] => false

def markOf (s : List Char) : Char :=
  if hasDoubleDash s || 3 < s.count '-' then ':' else '.'

def undashed (s : List Char) : List Char :=
  s.map fun c => if c = '-' then markOf s else c

def splitLastDash : List Char → Option (List Char × List Char)
  | [] => none
  | c :: s =>
    match splitLastDash s with
    | some (before, after) => some (c :: before, after)
    | none => if c = '-' then some ([], s) else none

def readAddress (s : List Char) : Option Address := Address.parse? (undashed s)

def readNetwork (s : List Char) : Option Network := do
  let (address, length) ← splitLastDash s
  Network.parse? (undashed address ++ '/' :: length)

def toAddress (name : String) : Except Error Address :=
  match readAddress name.toList with
  | some a => .ok a
  | none => .error (.notAddress name)

def toNetwork (name : String) : Except Error Network :=
  match readNetwork name.toList with
  | some n => .ok n.trunc
  | none => .error (.notNetwork name)

end HostBlocks.StorageName
