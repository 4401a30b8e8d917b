import Linkage.Toml.Value
/-!
Building a document. A table may be given in one place only: under one header, or by dotted keys
under one header, or inline. Every other way to come back to it is refused.
-/
namespace Linkage.Toml.Entries

def has (entries : Entries) (key : String) : Bool := (entries.lookup key).isSome

def put (entries : Entries) (key : String) (item : Item) : Entries :=
  match entries with
  | [] => [(key, item)]
  | (k, old) :: rest => if k = key then (k, item) :: rest else (k, old) :: put rest key item

/-- Adds an item under a dotted key. The tables on the way are made as needed. Of those that are
there already, none may have a header of its own, and the last one has to be made by a dotted key
as well. -/
def addDotted (key : String) (item : Item) : List String → Entries → Option Entries
  | [], entries => if entries.has key then none else some (entries ++ [(key, item)])
  | step :: path, entries =>
    match entries.lookup step with
    | none => do
      let inner ← addDotted key item path []
      return entries ++ [(step, .table true true inner)]
    | some (.table implicit dotted inner) =>
      if !implicit || (path.isEmpty && !dotted) then none else do
        let inner ← addDotted key item path inner
        return entries.put step (.table implicit dotted inner)
    | some (.rows tables) =>
      if path.isEmpty then none else
        match tables.getLast? with
        | none => none
        | some row => do
          let row ← addDotted key item path row
          return entries.put step (.rows (tables.dropLast ++ [row]))
    | some (.value _) => none

/-- Changes the entries that a path of headers leads to: the last ones of tables that were added
one by one. The tables on the way are made as needed. -/
def modifyAt (change : Entries → Option Entries) : List String → Entries → Option Entries
  | [], entries => change entries
  | step :: path, entries =>
    match entries.lookup step with
    | none => do
      let inner ← modifyAt change path []
      return entries ++ [(step, .table true false inner)]
    | some (.table implicit dotted inner) => do
      let inner ← modifyAt change path inner
      return entries.put step (.table implicit dotted inner)
    | some (.rows tables) =>
      match tables.getLast? with
      | none => none
      | some row => do
        let row ← modifyAt change path row
        return entries.put step (.rows (tables.dropLast ++ [row]))
    | some (.value _) => none

/-- Opens the table of a header. It has to be new, or made on the way to the table of another
header. -/
def openTable (key : String) (entries : Entries) : Option Entries :=
  match entries.lookup key with
  | none => some (entries ++ [(key, .table false false [])])
  | some (.table true false inner) => some (entries.put key (.table false false inner))
  | _ => none

def openRow (key : String) (entries : Entries) : Option Entries :=
  match entries.lookup key with
  | none => some (entries ++ [(key, .rows [[]])])
  | some (.rows tables) => some (entries.put key (.rows (tables ++ [[]])))
  | _ => none

end Linkage.Toml.Entries
