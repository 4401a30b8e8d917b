import Linkage.Name
/-!
Attributes: the constants attached to operations. An attribute may refer to a declaration by its
name, at any depth of arrays and dictionaries.
-/
namespace Linkage

inductive Attr where
  | int (value : Int)
  | str (value : String)
  | bool (value : Bool)
  | ref (name : Name)
  | array (items : List Attr)
  | dict (entries : List (Name × Attr))

namespace Attr

mutual

def refs : Attr → List Name
  | .ref name => [name]
  | .array items => refsOfItems items
  | .dict entries => refsOfEntries entries
  | .int _ | .str _ | .bool _ => []

def refsOfItems : List Attr → List Name
  | [] => []
  | item :: rest => refs item ++ refsOfItems rest

def refsOfEntries : List (Name × Attr) → List Name
  | [] => []
  | (_, value) :: rest => refs value ++ refsOfEntries rest

end

mutual

/-- Replaces every name that is referred to. Keys are no references. -/
def rename (f : Name → Name) : Attr → Attr
  | .ref name => .ref (f name)
  | .array items => .array (renameItems f items)
  | .dict entries => .dict (renameEntries f entries)
  | .int value => .int value
  | .str value => .str value
  | .bool value => .bool value

def renameItems (f : Name → Name) : List Attr → List Attr
  | [] => []
  | item :: rest => rename f item :: renameItems f rest

def renameEntries (f : Name → Name) : List (Name × Attr) → List (Name × Attr)
  | [] => []
  | (key, value) :: rest => (key, rename f value) :: renameEntries f rest

end

mutual

theorem refs_rename (f : Name → Name) (a : Attr) : (a.rename f).refs = a.refs.map f := by
  cases a with
  | array items => exact refsOfItems_rename f items
  | dict entries => exact refsOfEntries_rename f entries
  | _ => rfl

theorem refsOfItems_rename (f : Name → Name) (items : List Attr) :
    refsOfItems (renameItems f items) = (refsOfItems items).map f := by
  cases items with
  | nil => rfl
  | cons item rest =>
    simp only [renameItems, refsOfItems, List.map_append, refs_rename f item,
      refsOfItems_rename f rest]

theorem refsOfEntries_rename (f : Name → Name) (entries : List (Name × Attr)) :
    refsOfEntries (renameEntries f entries) = (refsOfEntries entries).map f := by
  cases entries with
  | nil => rfl
  | cons entry rest =>
    simp only [renameEntries, refsOfEntries, List.map_append, refs_rename f entry.2,
      refsOfEntries_rename f rest]

end

end Attr

end Linkage
