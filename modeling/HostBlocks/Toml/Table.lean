import HostBlocks.Value

/-!
# Tables

The table that a document builds up, statement by statement. A table may be written once, by a header
or by a record in braces. One that is only named on the way to another may still be written, and one
that dotted keys made may grow by dotted keys only, except for tables of their own inside it. A header
in double brackets adds a row to an array of tables.
-/
namespace HostBlocks.Toml

inductive Origin where
  /-- By its own header, or as the table of the whole document. -/
  | written
  /-- On the way to another header. -/
  | implied
  /-- On the way to a dotted key. -/
  | dotted
deriving DecidableEq

inductive Item where
  | value (v : Value)
  | table (origin : Origin) (entries : List (String × Item))
  | rows (rows : List (List (String × Item)))

abbrev Entries : Type := List (String × Item)

namespace Entries

def put (key : String) (item : Item) : Entries → Entries
  | [] => [(key, item)]
  | (k, i) :: rest => if k = key then (k, item) :: rest else (k, i) :: put key item rest

/-- Changes the table at the end of a path. Tables that are not there are made; an array of tables
stands for its last row. Dotted keys do not enter tables that are written elsewhere. -/
def change (dotted : Bool) (f : Origin → Entries → Option Entries) :
    List String → Origin → Entries → Option Entries
  | [], origin, entries => f origin entries
  | key :: path, _, entries =>
    match entries.lookup key with
    | none => do
      let made : Origin := if dotted then .dotted else .implied
      let inner ← change dotted f path made []
      return entries.put key (.table made inner)
    | some (.value _) => none
    | some (.rows rows) => do
      let last ← rows.getLast?
      let inner ← change dotted f path .written last
      return entries.put key (.rows (rows.dropLast ++ [inner]))
    | some (.table origin inner) =>
      if dotted ∧ origin = .written then none
      else do
        let inner ← change dotted f path origin inner
        return entries.put key (.table origin inner)

/-- A value goes into a table that dotted keys made exactly if it is given by a dotted key. -/
def assign (path : List String) (key : String) (v : Value) (origin : Origin) (entries : Entries) :
    Option Entries :=
  entries.change true (fun origin entries =>
    if (origin = .dotted) = (path = []) then none
    else if (entries.lookup key).isSome then none
    else some (entries.put key (.value v))) path origin

def ofPairs (pairs : List (List String × String × Value)) : Option Entries :=
  pairs.foldlM (fun entries (path, key, v) => assign path key v .written entries) []

def writeTable (path : List String) (key : String) (entries : Entries) : Option Entries :=
  entries.change false (fun _ entries =>
    match entries.lookup key with
    | none => some (entries.put key (.table .written []))
    | some (.table .implied inner) => some (entries.put key (.table .written inner))
    | some _ => none) path .written

def addRow (path : List String) (key : String) (entries : Entries) : Option Entries :=
  entries.change false (fun _ entries =>
    match entries.lookup key with
    | none => some (entries.put key (.rows [[]]))
    | some (.rows rows) => some (entries.put key (.rows (rows ++ [[]])))
    | some _ => none) path .written

def assignAt (header path : List String) (key : String) (v : Value) (entries : Entries) :
    Option Entries :=
  entries.change false (fun origin entries => entries.assign path key v origin) header .written

end Entries

mutual

def Item.toValue : Item → Value
  | .value v => v
  | .table _ entries => .record (entryValues entries)
  | .rows rows => .list (rowValues rows)

def entryValues : List (String × Item) → List (String × Value)
  | [] => []
  | (key, item) :: rest => (key, item.toValue) :: entryValues rest

def rowValues : List (List (String × Item)) → List Value
  | [] => []
  | row :: rest => .record (entryValues row) :: rowValues rest

end

end HostBlocks.Toml
