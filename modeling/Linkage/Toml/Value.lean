/-!
TOML values. Numbers with a fraction and moments in time are told apart from the other values, but
their contents are not kept: no setting has such a value.
-/
namespace Linkage.Toml

inductive Value where
  | str (s : String)
  | int (i : Int)
  | float
  | bool (b : Bool)
  | moment
  | array (items : List Value)
  | table (entries : List (String × Value))

inductive Item where
  | value (v : Value)
  /-- A table. It is implicit as long as no header names it, and dotted if dotted keys made it. -/
  | table (implicit dotted : Bool) (entries : List (String × Item))
  | rows (tables : List (List (String × Item)))

abbrev Entries := List (String × Item)

mutual

def Item.toValue : Item → Value
  | .value v => v
  | .table _ _ entries => .table (entryValues entries)
  | .rows tables => .array (rowValues tables)

def entryValues : List (String × Item) → List (String × Value)
  | [] => []
  | (key, item) :: rest => (key, item.toValue) :: entryValues rest

def rowValues : List (List (String × Item)) → List Value
  | [] => []
  | row :: rest => .table (entryValues row) :: rowValues rest

end

end Linkage.Toml
